import Emend.Proofs.Matching.Exact
import Emend.Proofs.Matching.Length
import Emend.Proofs.Reconcile.Landing
import Emend.Proofs.Text.LineEnding

namespace Emend

open Text

/-- The window's lines neither start nor end with a blank one, and no other window agrees with them.
The bounds are those of a machine: a text's length fits a word, and doubles still tell the lines
from others that differ in a single character. -/
structure Standing (content : Text) (w : Window) : Prop where
  fits : w.Fits content.pieces.length
  first_not_blank : ∀ l, (w.slice content.pieces).head? = some l → l.blank = false
  last_not_blank : ∀ l, (w.slice content.pieces).getLast? = some l → l.blank = false
  no_return : ∀ l ∈ w.slice content.pieces, l.getLast? ≠ some '\r'
  only : ∀ v ∈ windows (.standard : MatchPolicy Float) (w.slice content.pieces) content.pieces,
    v ≠ w → ¬Agrees (w.slice content.pieces) (v.slice content.pieces)
  length_lt : content.length < pow2 63
  length_block_le : (unlines (w.slice content.pieces)).length ≤ pow2 48

namespace Standing

variable {content : Text} {w : Window} (h : Standing content w)

include h

theorem slice_isLine : ∀ l ∈ w.slice content.pieces, IsLine l := fun l hl =>
  ⟨no_feed_of_mem_pieces (List.mem_of_mem_drop (List.mem_of_mem_take hl)), h.no_return l hl⟩

theorem exists_last : ∃ ls l, w.slice content.pieces = ls ++ [l] ∧ l.blank = false := by
  rcases List.eq_nil_or_concat (w.slice content.pieces) with hnil | ⟨ls, l, hl⟩
  · exact absurd hnil (Window.slice_ne_nil h.fits)
  · rw [List.concat_eq_append] at hl
    exact ⟨ls, l, hl, h.last_not_blank l (by rw [hl]; simp)⟩

theorem block_ne_nil : unlines (w.slice content.pieces) ≠ [] := by
  have hblank := blank_unlines_eq_false (Window.slice_ne_nil h.fits) h.first_not_blank
  intro hnil
  rw [hnil] at hblank
  cases hblank

theorem getLast?_block : (unlines (w.slice content.pieces)).getLast? ≠ some '\n' := by
  obtain ⟨ls, l, hl, hblank⟩ := h.exists_last
  have hfeed : '\n' ∉ l := (h.slice_isLine l (by rw [hl]; simp)).no_feed
  have hne : l ≠ [] := fun hnil => by
    rw [hnil] at hblank
    cases hblank
  rw [hl, unlines_append_cons, preceded_nil, List.append_nil, List.getLast?_append_of_ne_nil _ hne]
  exact fun hlast => hfeed (List.mem_of_getLast? hlast)

theorem alignEnding_terminated {ls : List Text} (hls : ls ≠ []) :
    alignEnding (unlines (w.slice content.pieces)) (terminated ls) = unlines ls := by
  have hend := terminated_eq hls
  rw [alignEnding, if_pos ⟨h.getLast?_block, by rw [hend]; simp⟩, hend, List.dropLast_concat]

theorem queryLines_terminated {above below : List Text}
    (hsub : (above ++ w.slice content.pieces ++ below).Sublist content.pieces)
    (habove : ∀ l ∈ above, l.blank = true) (hbelow : ∀ l ∈ below, l.blank = true) :
    queryLines (terminated (above ++ w.slice content.pieces ++ below)) = w.slice content.pieces := by
  have hslice : (w.slice content.pieces).map dropReturn = w.slice content.pieces :=
    (List.map_congr_left (g := id) fun l hl => dropReturn_of_isLine (h.slice_isLine l hl)).trans
      (List.map_id _)
  have hlines : lines (terminated (above ++ w.slice content.pieces ++ below)) =
      above.map dropReturn ++ w.slice content.pieces ++ below.map dropReturn := by
    rw [lines_terminated_eq_map fun l hl => no_feed_of_mem_pieces (hsub.subset hl),
      List.map_append, List.map_append, hslice]
  refine queryLines_of_padded hlines ?_ ?_ (Window.slice_ne_nil h.fits) h.first_not_blank
    h.last_not_blank
  · exact List.forall_mem_map.2 fun l hl => blank_dropReturn (habove l hl)
  · exact List.forall_mem_map.2 fun l hl => blank_dropReturn (hbelow l hl)

theorem length_terminated_lt {ls : List Text} (hls : ls.Sublist content.pieces) :
    (terminated ls).length < word := by
  have hle := length_terminated_le_of_sublist hls
  have hlen := h.length_lt
  have hword : pow2 63 + 1 < word := by decide
  rw [length_terminated_pieces] at hle
  omega

theorem mem_windows :
    w ∈ windows (.standard : MatchPolicy Float) (w.slice content.pieces) content.pieces := by
  have hpieces := length_pieces_le content
  have hlen := h.length_lt
  have hword : pow2 63 + 6 < word := by decide
  have htolerance : (MatchPolicy.standard : MatchPolicy Float).windowTolerance = 5 := rfl
  exact mem_windows_of_slice_eq h.fits rfl (by rw [htolerance]; omega) (by rw [htolerance]; omega)

theorem wins :
    Wins (scoreOf (.standard : MatchPolicy Float) (w.slice content.pieces) content.pieces)
        (windows (.standard : MatchPolicy Float) (w.slice content.pieces) content.pieces) w ∧
      scoreOf (.standard : MatchPolicy Float) (w.slice content.pieces) content.pieces w =
        fullScore := by
  refine wins_of_slice_eq h.mem_windows rfl h.only
    (h.length_terminated_lt (List.Sublist.refl _)).le ?_
  rw [terminated_eq (Window.slice_ne_nil h.fits), List.length_append, List.length_singleton]
  exact Nat.succ_le_succ h.length_block_le

theorem bestMatch_eq {search : Text} (hquery : queryLines search = w.slice content.pieces)
    (hsearch : search.length < word) :
    bestMatch .standard search content = ⟨unlines (w.slice content.pieces), fullScore⟩ := by
  obtain ⟨hwins, hfull⟩ := h.wins
  have hblank : search.blank = false :=
    blank_eq_false_of_queryLines (hquery ▸ Window.slice_ne_nil h.fits)
  have hcontent : content.length < word := h.length_lt.trans (by decide)
  rw [← hquery] at hwins hfull
  rw [bestMatch_of_wins standard_isFinite hsearch hcontent hblank hwins
    (by rw [hfull]; decide +kernel), hfull]

theorem occursAt : OccursAt (unlines (w.slice content.pieces)) content (w.leading content.pieces)
    (w.trailing content.pieces) := by
  have hoccurs := Window.occursAt_slice h.fits
  rwa [unlines_pieces] at hoccurs

/-- The change applies. It lands on the window if the block occurs only there, and the result is as
long as if it did. -/
theorem exists_apply (path new : Text) :
    ∃ t, (⟨path, unlines (w.slice content.pieces), new⟩ : Change).apply content = .ok t ∧
      t.length = (w.splice content.pieces new).length ∧
      (occurrences (unlines (w.slice content.pieces)) content = 1 →
        t = w.splice content.pieces new) := by
  have hne := h.block_ne_nil
  have hstands := h.occursAt
  obtain ⟨before, rest, hoccurs, hfirst, happly⟩ :=
    Change.exists_apply (c := ⟨path, unlines (w.slice content.pieces), new⟩) hne hstands
  refine ⟨_, happly, ?_, fun hone => ?_⟩
  · have hlen := congrArg List.length (hoccurs.symm.trans hstands)
    rw [Window.splice_eq]
    simp only [List.length_append] at hlen ⊢
    omega
  · have hlanded : (⟨path, unlines (w.slice content.pieces), new⟩ : Change).apply content =
        .ok (w.splice content.pieces new) := by
      rw [Window.splice_eq]
      exact (Change.apply_eq_ok_iff hne).2
        ⟨_, _, hstands, isFirst_of_occurrences hstands hone, rfl⟩
    exact Except.ok.inj (happly.symm.trans hlanded)

end Standing

section

variable {files : FileSet} {file : Snapshot} {c : Change} {w : Window} {p : ReconcilePolicy Float}
  {likeness : Float}

/-- A candidate whose query stands in a known file gets the lines as its block. Only the text that
stands for an insertion cannot be found. -/
theorem Standing.reconcileChange_eq (h : Standing file.content w)
    (hp : p.matcher = .standard) (format : EditFormat)
    (hfile : files.resolve c.path p.newFileThreshold = .existing file likeness)
    (hquery : queryLines c.search = w.slice file.content.pieces) (hsearch : c.search.length < word) :
    reconcileChange p format files c =
      if unlines (w.slice file.content.pieces) = unmatchableBlock then
        .error (.noMatch file.path fullScore c.search)
      else .ok ⟨file.path, unlines (w.slice file.content.pieces),
        alignEnding (unlines (w.slice file.content.pieces)) c.replacement⟩ := by
  have hblank : c.search.blank = false :=
    blank_eq_false_of_queryLines (hquery ▸ Window.slice_ne_nil h.fits)
  have hbest := h.bestMatch_eq hquery hsearch
  have hno : (noScore : Float) < fullScore := by decide +kernel
  have hmin : ¬(fullScore : Float) ≤ (MatchPolicy.standard : MatchPolicy Float).minScore := by
    decide +kernel
  rw [reconcileChange_of_existing hfile, placeIn_of_not_blank hblank, hp, hbest]
  split
  · rename_i hfound
    rw [if_neg]
    · rfl
    · intro hblock
      simp [Match.isFound, Match.isInsertion, hblock] at hfound
  · rename_i hfound
    rw [if_pos]
    · rfl
    · by_contra hblock
      exact hfound (by simp [Match.isFound, Match.isInsertion, hno, hmin, hblock])

theorem Standing.reconcileChange_of_search_eq (h : Standing file.content w)
    (hp : p.matcher = .standard) (format : EditFormat)
    (hfile : files.resolve c.path p.newFileThreshold = .existing file likeness)
    (hsearch : c.search = terminated (w.slice file.content.pieces)) :
    reconcileChange p format files c =
      if unlines (w.slice file.content.pieces) = unmatchableBlock then
        .error (.noMatch file.path fullScore c.search)
      else .ok ⟨file.path, unlines (w.slice file.content.pieces),
        alignEnding (unlines (w.slice file.content.pieces)) c.replacement⟩ := by
  have hsub : ([] ++ w.slice file.content.pieces ++ []).Sublist file.content.pieces := by
    rw [List.nil_append, List.append_nil]
    exact sublist_slice w _
  have hquery := h.queryLines_terminated hsub (List.forall_mem_nil _) (List.forall_mem_nil _)
  rw [List.nil_append, List.append_nil] at hquery hsub
  refine h.reconcileChange_eq hp format hfile (hsearch ▸ hquery) ?_
  rw [hsearch]
  exact h.length_terminated_lt hsub

end

end Emend
