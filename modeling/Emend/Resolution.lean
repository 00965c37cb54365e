import Emend.FileSet
import Emend.Similarity

namespace Emend

inductive Resolution (α : Type)
  | existing (file : Snapshot) (likeness : α)
  | unknown (path : Text) (nearest : Option (Snapshot × α))

variable {α : Type}

namespace Resolution

def path : Resolution α → Text
  | existing file _ => file.path
  | unknown path _ => path

def isNew : Resolution α → Bool
  | existing _ _ => false
  | unknown _ _ => true

def likeness? : Resolution α → Option α
  | existing _ s => some s
  | unknown _ _ => none

end Resolution

namespace FileSet

/-- The file whose path takes the fewest edits to become `stated`; of several the first. -/
def closest? (stated : Text) : FileSet → Option Snapshot
  | [] => none
  | f :: fs =>
      match closest? stated fs with
      | none => some f
      | some g => if editDistance stated g.path < editDistance stated f.path then some g else some f

def resolve [Score α] (files : FileSet) (stated : Text) (threshold : α) : Resolution α :=
  match files.get? stated with
  | some file => .existing file (Score.ofNat 1)
  | none =>
      match files.closest? stated with
      | none => .unknown stated none
      | some file =>
          let likeness := similarity stated file.path
          if likeness < threshold then .unknown stated (some (file, likeness))
          else .existing file likeness

end FileSet

end Emend
