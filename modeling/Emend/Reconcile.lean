import Emend.Decimal.Numeral
import Emend.Format.EditFormat
import Emend.Matching.Match
import Emend.Resolution

namespace Emend

structure ReconcilePolicy (α : Type) where
  newFileThreshold : α
  editFormat : EditFormat
  matcher : MatchPolicy α

def ReconcilePolicy.standard {α : Type} [Score α] : ReconcilePolicy α :=
  ⟨Score.quotient 6 10, .unifiedDiff, .standard⟩

inductive ReconcileError (α : Type)
  | noMatch (path : Text) (bestScore : α) (search : Text)
  | missingSearch (path replacement : Text)

namespace ReconcileError

variable {α : Type}

def path : ReconcileError α → Text
  | noMatch path _ _ => path
  | missingSearch path _ => path

def message [Numeral α] : ReconcileError α → Text
  | noMatch path score _ =>
      "No sufficiently similar block found in ".toList ++ path ++ " (best score ".toList ++
        Numeral.twoPlaces score ++ [')']
  | missingSearch path _ =>
      "Edit to existing file ".toList ++ path ++ " has no search text to anchor it".toList

end ReconcileError

inductive Placement (α : Type)
  /-- No known file is meant, and the candidate stands as it is. -/
  | newFile (c : Change) (nearest : Option (Snapshot × α))
  | wholeFile (path replacement : Text)
  | block (path : Text) (found : Match α) (replacement : Text)
  | failed (e : ReconcileError α)

/-- Blocks are found without a final line feed, so the replacement gives up its own. -/
def alignEnding (block replacement : Text) : Text :=
  if block.getLast? ≠ some '\n' ∧ replacement.getLast? = some '\n' then replacement.dropLast
  else replacement

namespace Placement

variable {α : Type}

def result : Placement α → Except (ReconcileError α) Change
  | newFile c _ => .ok c
  | wholeFile path replacement => .ok ⟨path, [], replacement⟩
  | block path found replacement => .ok ⟨path, found.block, alignEnding found.block replacement⟩
  | failed e => .error e

end Placement

section

variable {α : Type} [Score α] (p : ReconcilePolicy α)

def placeIn (format : EditFormat) (file : Snapshot) (c : Change) : Placement α :=
  if c.search.blank then
    if format.replacesWholeFile then .wholeFile file.path c.replacement
    else .failed (.missingSearch file.path c.replacement)
  else
    let best := bestMatch p.matcher c.search file.content
    if !best.isFound || best.score ≤ p.matcher.minScore then
      .failed (.noMatch file.path best.score c.search)
    else .block file.path best c.replacement

def place (format : EditFormat) (files : FileSet) (c : Change) : Placement α :=
  match files.resolve c.path p.newFileThreshold with
  | .unknown _ nearest => .newFile c nearest
  | .existing file _ => placeIn p format file c

end

structure Reconciliation (α : Type) where
  changes : List Change
  failures : List (ReconcileError α)

namespace Reconciliation

variable {α : Type}

def empty : Reconciliation α := ⟨[], []⟩

def ofPlacements (ps : List (Placement α)) : Reconciliation α :=
  { changes := ps.filterMap fun p => p.result.toOption
    failures := ps.filterMap fun p =>
      match p.result with
      | .ok _ => none
      | .error e => some e }

end Reconciliation

section

variable {α : Type} [Score α] (p : ReconcilePolicy α) (format : EditFormat) (files : FileSet)

def reconcileChange (c : Change) : Except (ReconcileError α) Change :=
  (place p format files c).result

def placements (candidates : List Change) : List (Placement α) :=
  (candidates.filter (!·.isNoop)).map (place p format files)

def reconcileChanges (candidates : List Change) : Reconciliation α :=
  .ofPlacements (placements p format files candidates)

end

/-- Reconciles a response in the policy's format with the known files. -/
def reconcile {α : Type} [Score α] (p : ReconcilePolicy α) (files : FileSet) (response : Text) :
    Reconciliation α :=
  reconcileChanges p p.editFormat files (p.editFormat.candidates response)

end Emend
