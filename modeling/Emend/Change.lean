import Emend.FileSet
import Emend.Text.Search

namespace Emend

structure Change where
  path : Text
  search : Text
  replacement : Text
deriving DecidableEq

inductive ApplyError
  | searchNotFound (path : Text)

def ApplyError.message : ApplyError → Text
  | .searchNotFound path => "search block not found in ".toList ++ path

namespace Change

variable (c : Change)

def isNoop : Bool := c.path.blank || c.search.blank && c.replacement.blank

def createsFile : Bool := c.search == []

/-- The content after the change: the first occurrence of the search block is replaced. -/
def apply (content : Text) : Except ApplyError Text :=
  if c.createsFile then .ok c.replacement
  else match Text.replaceFirst? c.search c.replacement content with
    | some updated => .ok updated
    | none => .error (.searchNotFound c.path)

/-- Applies changes one after another. One that fails leaves the content to the next. -/
def applyEach (content : Text) : List Change → List (Except ApplyError Text)
  | [] => []
  | c :: cs => c.apply content :: applyEach ((c.apply content).toOption.getD content) cs

end Change

namespace FileSet

def contentOf (files : FileSet) (path : Text) : Text :=
  ((files.get? path).map Snapshot.content).getD []

def apply (files : FileSet) (c : Change) : FileSet × Except ApplyError Text :=
  match c.apply (files.contentOf c.path) with
  | .ok content => (files.insert c.path content, .ok content)
  | .error e => (files, .error e)

def applyAll (files : FileSet) : List Change → FileSet × List (Except ApplyError Text)
  | [] => (files, [])
  | c :: cs =>
      let (files', r) := files.apply c
      let (files'', rs) := applyAll files' cs
      (files'', r :: rs)

end FileSet

end Emend
