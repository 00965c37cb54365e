import Emend.Change
import Emend.Text.Basic

namespace Emend

structure Hunk where
  path : Text
  text : Text
deriving DecidableEq

inductive DiffMark
  | oldFile
  | newFile (name : Text)
  | section
  | body

namespace DiffMark

def ofLine (line : Text) : DiffMark :=
  if line.startsWith ['-', '-', '-'] then .oldFile
  else match Text.after? ['+', '+', '+'] line.trimStart with
    | some name => .newFile name.trim
    | none => if line.trimStart.startsWith ['@', '@'] then .section else .body

end DiffMark

namespace Hunk

/-- The hunk that a header line ends. Lines before the first file's name belong to no hunk. -/
def closed (path text : Text) : List Hunk := if path = [] then [] else [⟨path, text⟩]

/-- The hunks of the remaining lines, when `text` has been gathered for `path`. The last hunk is
there even when it has no path. -/
def ofLines (path text : Text) : List Text → List Hunk
  | [] => [⟨path, text⟩]
  | l :: ls =>
      match DiffMark.ofLine l with
      | .oldFile => ofLines path text ls
      | .newFile name => closed path text ++ ofLines name [] ls
      | .section => closed path text ++ ofLines path [] ls
      | .body => ofLines path (text ++ l ++ ['\n']) ls

def ofDiff (diff : Text) : List Hunk := ofLines [] [] diff.lines

end Hunk

inductive DiffLine
  | context (text : Text)
  | removed (text : Text)
  | added (text : Text)
deriving DecidableEq

namespace DiffLine

/-- Context lines may lack their leading space. -/
def ofLine : Text → DiffLine
  | '-' :: l => .removed l
  | '+' :: l => .added l
  | ' ' :: l => .context l
  | l => .context l

def render : DiffLine → Text
  | context l => ' ' :: l
  | removed l => '-' :: l
  | added l => '+' :: l

def old? : DiffLine → Option Text
  | context l | removed l => some l
  | added _ => none

def new? : DiffLine → Option Text
  | context l | added l => some l
  | removed _ => none

end DiffLine

def Change.ofDiffLines (path : Text) (ls : List DiffLine) : Change :=
  ⟨path, Text.terminated (ls.filterMap DiffLine.old?), Text.terminated (ls.filterMap DiffLine.new?)⟩

def Hunk.toChange (h : Hunk) : Change := .ofDiffLines h.path (h.text.lines.map DiffLine.ofLine)

def changesOfDiff (diff : Text) : List Change := (Hunk.ofDiff diff).map Hunk.toChange

structure FilePatch where
  path : Text
  hunks : List (List DiffLine)

namespace FilePatch

def renderHunk (ls : List DiffLine) : Text :=
  Text.terminated ("@@ ... @@".toList :: ls.map DiffLine.render)

def render (p : FilePatch) : Text :=
  Text.terminated ["--- ".toList ++ p.path, "+++ ".toList ++ p.path] ++ p.hunks.flatMap renderHunk

end FilePatch

end Emend
