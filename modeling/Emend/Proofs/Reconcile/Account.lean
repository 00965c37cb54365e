import Emend.Proofs.Matching.Query
import Emend.Proofs.Reconcile.Anchor
import Mathlib.Data.Fintype.Sum
import Mathlib.Data.List.NodupEquivFin

namespace Emend

variable {α : Type}

namespace Reconciliation

variable {ps : List (Placement α)} {pl : Placement α} {ch : Change} {e : ReconcileError α}

theorem ofPlacements_cons_ok (h : pl.result = .ok ch) :
    ofPlacements (pl :: ps) = ⟨ch :: (ofPlacements ps).changes, (ofPlacements ps).failures⟩ := by
  simp [ofPlacements, h, Except.toOption]

theorem ofPlacements_cons_error (h : pl.result = .error e) :
    ofPlacements (pl :: ps) = ⟨(ofPlacements ps).changes, e :: (ofPlacements ps).failures⟩ := by
  simp [ofPlacements, h, Except.toOption]

theorem map_ok_changes (ps : List (Placement α)) :
    (ofPlacements ps).changes.map Except.ok = (ps.map Placement.result).filter (·.isOk) := by
  induction ps with
  | nil => rfl
  | cons pl ps ih =>
      cases h : pl.result with
      | ok ch => rw [ofPlacements_cons_ok h, List.map_cons, ih, List.map_cons, h]; rfl
      | error e => rw [ofPlacements_cons_error h, ih, List.map_cons, h]; rfl

theorem map_error_failures (ps : List (Placement α)) :
    (ofPlacements ps).failures.map Except.error = (ps.map Placement.result).filter (!·.isOk) := by
  induction ps with
  | nil => rfl
  | cons pl ps ih =>
      cases h : pl.result with
      | ok ch => rw [ofPlacements_cons_ok h, ih, List.map_cons, h]; rfl
      | error e => rw [ofPlacements_cons_error h, List.map_cons, ih, List.map_cons, h]; rfl

theorem length_changes_add_length_failures (ps : List (Placement α)) :
    (ofPlacements ps).changes.length + (ofPlacements ps).failures.length = ps.length := by
  have hchanges := congrArg List.length (map_ok_changes ps)
  have hfailures := congrArg List.length (map_error_failures ps)
  rw [List.length_map] at hchanges hfailures
  rw [hchanges, hfailures, ← List.length_eq_length_filter_add, List.length_map]

theorem ofPlacements_append (ps qs : List (Placement α)) :
    ofPlacements (ps ++ qs) =
      ⟨(ofPlacements ps).changes ++ (ofPlacements qs).changes,
        (ofPlacements ps).failures ++ (ofPlacements qs).failures⟩ := by
  simp [ofPlacements]

end Reconciliation

variable [Score α] {p : ReconcilePolicy α} {format : EditFormat} {files : FileSet}
  {c : Change} {path search replacement : Text} {score : α}

theorem reconcileChange_eq_missingSearch_iff :
    reconcileChange p format files c = .error (.missingSearch path replacement) ↔
      c.search.blank = true ∧ format.replacesWholeFile = false ∧ replacement = c.replacement ∧
        ∃ file likeness, files.resolve c.path p.newFileThreshold = .existing file likeness ∧
          path = file.path := by
  cases hresolve : files.resolve c.path p.newFileThreshold with
  | unknown stated nearest => simp [reconcileChange, place, hresolve, Placement.result]
  | existing file likeness =>
      rw [reconcileChange_of_existing hresolve]
      cases hblank : c.search.blank with
      | false =>
          rw [placeIn_of_not_blank hblank]
          split <;> simp [Placement.result]
      | true =>
          rw [placeIn, hblank, if_pos rfl]
          cases hwhole : format.replacesWholeFile <;>
            simp [Placement.result, eq_comm, and_comm]

theorem reconcileChange_eq_noMatch_iff :
    reconcileChange p format files c = .error (.noMatch path score search) ↔
      search.blank = false ∧ search = c.search ∧
        ∃ file likeness, files.resolve c.path p.newFileThreshold = .existing file likeness ∧
          path = file.path ∧ score = (bestMatch p.matcher search file.content).score ∧
          (score ≤ p.matcher.minScore ∨
            (bestMatch p.matcher search file.content).isFound = false) := by
  cases hresolve : files.resolve c.path p.newFileThreshold with
  | unknown stated nearest => simp [reconcileChange, place, hresolve, Placement.result]
  | existing file likeness =>
      rw [reconcileChange_of_existing hresolve]
      cases hblank : c.search.blank with
      | true =>
          rw [placeIn, hblank, if_pos rfl]
          constructor
          · intro h
            split at h <;> cases h
          · rintro ⟨hsearch, rfl, -⟩
            rw [hblank] at hsearch
            cases hsearch
      | false =>
          rw [placeIn_of_not_blank hblank]
          constructor
          · intro h
            split at h
            · cases h
            · rename_i hmissed
              cases h
              refine ⟨hblank, rfl, file, likeness, rfl, rfl, rfl, ?_⟩
              rw [not_and_or, Bool.not_eq_true, not_not] at hmissed
              exact hmissed.symm
          · rintro ⟨-, rfl, file', likeness', hfile, rfl, rfl, hmissed⟩
            cases hfile
            rw [if_neg]
            · rfl
            · rintro ⟨hfound, hhigh⟩
              rcases hmissed with hlow | hnot
              · exact hhigh hlow
              · rw [hfound] at hnot
                cases hnot

/-- A match that counts is the best of the windows, never the insertion for a blank query. -/
theorem bestMatch_of_place
    (h : (∃ found, place p format files c = .block path found replacement) ∨
      place p format files c = .failed (.noMatch path score search)) (content : Text) :
    bestMatch p.matcher c.search content =
      (prunedBest p.matcher (queryLines c.search) content.pieces).toMatch content.pieces := by
  have hblank : c.search.blank = false := by
    rw [← Bool.not_eq_true]
    intro hblank
    rw [place] at h
    split at h
    · rcases h with ⟨found, h⟩ | h <;> cases h
    · rw [placeIn, hblank, if_pos rfl] at h
      split at h <;> rcases h with ⟨found, h⟩ | h <;> cases h
  rw [bestMatch]
  split
  · rename_i hnil
    exact absurd hnil (queryLines_ne_nil hblank)
  · rename_i q qs hquery
    rw [hquery]

theorem path_mem_paths_of_error {e : ReconcileError α}
    (h : reconcileChange p format files c = .error e) : e.path ∈ files.paths := by
  obtain ⟨file, likeness, hresolve, hpath⟩ : ∃ file likeness,
      files.resolve c.path p.newFileThreshold = .existing file likeness ∧ e.path = file.path := by
    cases e with
    | noMatch path score search =>
        obtain ⟨-, -, file, likeness, hresolve, hpath, -⟩ := reconcileChange_eq_noMatch_iff.1 h
        exact ⟨file, likeness, hresolve, hpath⟩
    | missingSearch path replacement =>
        obtain ⟨-, -, -, file, likeness, hresolve, hpath⟩ :=
          reconcileChange_eq_missingSearch_iff.1 h
        exact ⟨file, likeness, hresolve, hpath⟩
  rw [hpath]
  exact List.mem_map_of_mem (List.mem_of_find?_eq_some (FileSet.get?_of_resolve_existing hresolve))

theorem reconcileChanges_append (p : ReconcilePolicy α) (format : EditFormat) (files : FileSet)
    (candidates others : List Change) :
    reconcileChanges p format files (candidates ++ others) =
      ⟨(reconcileChanges p format files candidates).changes ++
          (reconcileChanges p format files others).changes,
        (reconcileChanges p format files candidates).failures ++
          (reconcileChanges p format files others).failures⟩ := by
  rw [reconcileChanges, placements, List.filter_append, List.map_append,
    Reconciliation.ofPlacements_append]
  rfl

/-- What a filter keeps of the images stands for elements in order. -/
theorem exists_orderEmbedding_of_filter {β γ δ : Type} {l : List δ} {φ : δ → γ} {q : γ → Bool}
    {xs : List β} {f : β → γ} (h : xs.map f = (l.map φ).filter q) :
    ∃ at_ : Fin xs.length ↪o Fin l.length, ∀ i, φ l[at_ i] = f xs[i] := by
  obtain ⟨at_, hat⟩ := List.sublist_iff_exists_fin_orderEmbedding_get_eq.1
    (h ▸ List.filter_sublist : (xs.map f).Sublist (l.map φ))
  refine ⟨(Fin.castOrderIso (List.length_map f).symm).toOrderEmbedding.trans
    (at_.trans (Fin.castOrderIso (List.length_map φ)).toOrderEmbedding), fun i => ?_⟩
  have hi := hat (Fin.cast (List.length_map f).symm i)
  simpa using hi.symm

/-- The entries stand for the candidates one to one and in order, and are what becomes of them. -/
def Reconciliation.Accounts (outcome : Change → Except (ReconcileError α) Change)
    (kept : List Change) (r : Reconciliation α) : Prop :=
  ∃ (f : Fin r.changes.length ↪o Fin kept.length) (g : Fin r.failures.length ↪o Fin kept.length),
    Function.Bijective (Sum.elim f g) ∧ (∀ i, outcome kept[f i] = .ok r.changes[i]) ∧
      ∀ i, outcome kept[g i] = .error r.failures[i]

theorem accounts_reconcileChanges (p : ReconcilePolicy α) (format : EditFormat) (files : FileSet)
    (candidates : List Change) :
    (reconcileChanges p format files candidates).Accounts (reconcileChange p format files)
      (candidates.filter (!·.isNoop)) := by
  have houtcomes : (placements p format files candidates).map Placement.result =
      (candidates.filter (!·.isNoop)).map (reconcileChange p format files) := by
    rw [placements, List.map_map]
    rfl
  obtain ⟨f, hf⟩ := exists_orderEmbedding_of_filter
    (houtcomes ▸ Reconciliation.map_ok_changes (placements p format files candidates))
  obtain ⟨g, hg⟩ := exists_orderEmbedding_of_filter
    (houtcomes ▸ Reconciliation.map_error_failures (placements p format files candidates))
  refine ⟨f, g, ?_, hf, hg⟩
  have hinjective : Function.Injective (Sum.elim f g) := by
    refine f.injective.sumElim g.injective fun i j heq => ?_
    have hsame := congrArg (fun k => reconcileChange p format files
      (candidates.filter (!·.isNoop))[k]) heq
    simp only [hf, hg] at hsame
    cases hsame
  refine (Fintype.bijective_iff_injective_and_card _).2 ⟨hinjective, ?_⟩
  have hlength :=
    Reconciliation.length_changes_add_length_failures (placements p format files candidates)
  rw [placements, List.length_map] at hlength
  rw [Fintype.card_sum, Fintype.card_fin, Fintype.card_fin, Fintype.card_fin]
  exact hlength

/-- Every candidate with something to apply becomes one change or one failure, in order. A failure
is that of an edit of a known file without search text, or of one whose match is too low or none. -/
theorem reconcileChanges_accounts (p : ReconcilePolicy α) (format : EditFormat) (files : FileSet)
    (candidates : List Change) :
    let r := reconcileChanges p format files candidates
    r.Accounts (reconcileChange p format files) (candidates.filter (!·.isNoop)) ∧
    (∀ others, reconcileChanges p format files (candidates ++ others) =
      ⟨r.changes ++ (reconcileChanges p format files others).changes,
        r.failures ++ (reconcileChanges p format files others).failures⟩) ∧
    (∀ e ∈ r.failures, e.path ∈ files.paths) ∧
    (∀ c path replacement,
      reconcileChange p format files c = .error (.missingSearch path replacement) ↔
        c.search.blank = true ∧ format.replacesWholeFile = false ∧ replacement = c.replacement ∧
          ∃ file likeness, files.resolve c.path p.newFileThreshold = .existing file likeness ∧
            path = file.path) ∧
    (∀ c path score search,
      reconcileChange p format files c = .error (.noMatch path score search) ↔
        search.blank = false ∧ search = c.search ∧
          ∃ file likeness, files.resolve c.path p.newFileThreshold = .existing file likeness ∧
            path = file.path ∧ score = (bestMatch p.matcher search file.content).score ∧
            (score ≤ p.matcher.minScore ∨
              (bestMatch p.matcher search file.content).isFound = false)) ∧
    ∀ c path replacement score search,
      (∃ found, place p format files c = .block path found replacement) ∨
        place p format files c = .failed (.noMatch path score search) →
      ∀ content, bestMatch p.matcher c.search content =
        (prunedBest p.matcher (queryLines c.search) content.pieces).toMatch content.pieces := by
  intro r
  have haccounts := accounts_reconcileChanges p format files candidates
  refine ⟨haccounts, reconcileChanges_append p format files candidates, ?_,
    fun _ _ _ => reconcileChange_eq_missingSearch_iff,
    fun _ _ _ _ => reconcileChange_eq_noMatch_iff, fun _ _ _ _ _ h => bestMatch_of_place h⟩
  intro e he
  obtain ⟨-, g, -, -, hg⟩ := haccounts
  obtain ⟨i, hi, rfl⟩ := List.mem_iff_getElem.1 he
  exact path_mem_paths_of_error (hg ⟨i, hi⟩)

def blankEdit : Change := ⟨"a.txt".toList, " \n".toList, "y\n".toList⟩

theorem reconcileChanges_accounts_blankEdit :
    let files : FileSet := [⟨"a.txt".toList, "x\n".toList⟩]
    let r := reconcileChanges (.standard : ReconcilePolicy Float) .unifiedDiff files
      [⟨"a.txt".toList, [], []⟩, blankEdit]
    .missingSearch "a.txt".toList "y\n".toList ∈ r.failures ∧ "a.txt".toList ∈ files.paths := by
  intro files r
  obtain ⟨-, -, hpaths, hmissing, -⟩ := reconcileChanges_accounts
    (.standard : ReconcilePolicy Float) .unifiedDiff files [⟨"a.txt".toList, [], []⟩, blankEdit]
  have herror := (hmissing blankEdit "a.txt".toList "y\n".toList).2
    ⟨by decide, rfl, rfl, _, _, FileSet.resolve_of_get? rfl, rfl⟩
  have hmem : .missingSearch "a.txt".toList "y\n".toList ∈ r.failures := by
    have hkept : [⟨"a.txt".toList, [], []⟩, blankEdit].filter (!·.isNoop) = [blankEdit] := by decide
    simp only [r, reconcileChanges, placements, hkept, List.map_singleton]
    rw [Reconciliation.ofPlacements_cons_error herror]
    exact List.mem_cons_self
  exact ⟨hmem, hpaths _ hmem⟩

end Emend
