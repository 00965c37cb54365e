import Emend.Format.Fence
import Emend.Format.Hunk
import Emend.Format.Instructions
import Emend.Format.MarkerBlock

namespace Emend

inductive EditFormat
  | unifiedDiff
  | searchReplace
  | wholeFile
deriving DecidableEq

/-- A place in a response that looked like an edit and was passed over. -/
inductive Skipped
  | emptyHunk (path : Text)
  | unnamedBlock (header : Text)

inductive Extracted
  | candidate (c : Change)
  | skipped (s : Skipped)

namespace Extracted

def candidate? : Extracted → Option Change
  | candidate c => some c
  | skipped _ => none

def skipped? : Extracted → Option Skipped
  | candidate _ => none
  | skipped s => some s

end Extracted

/-- The blocks of a response that hold diffs. Without any block, all of it is one. -/
def diffBlocks (response : Text) : List Text :=
  match codeBlocks [] response with
  | [] => [response]
  | blocks => blocks

def extractDiffs (response : Text) : List Extracted :=
  ((diffBlocks response).flatMap changesOfDiff).map fun c =>
    if c.isNoop then .skipped (.emptyHunk c.path) else .candidate c

namespace MarkerBlock

def extract? (b : MarkerBlock) : Option Extracted :=
  match pathOfHeader? b.header with
  | none => some (.skipped (.unnamedBlock b.header))
  | some path =>
      let c : Change := ⟨path, b.search, b.replacement⟩
      if c.isNoop then none else some (.candidate c)

def render (n : Nat) (b : MarkerBlock) : Text :=
  let line (t : Text) : Text := if t = [] then [] else t ++ ['\n']
  b.header ++ '\n' :: List.replicate n '<' ++ " SEARCH\n".toList ++ line b.search ++
    List.replicate n '=' ++ '\n' :: line b.replacement ++
    List.replicate n '>' ++ " REPLACE\n".toList

end MarkerBlock

def FileBlock.toChange (b : FileBlock) : Change := ⟨b.path, [], b.code ++ ['\n']⟩

namespace EditFormat

def name : EditFormat → Text
  | unifiedDiff => "unified".toList
  | searchReplace => "search_replace".toList
  | wholeFile => "whole_file".toList

def replacesWholeFile (f : EditFormat) : Bool := f == wholeFile

def instructions : EditFormat → (directory : Text) → Text
  | unifiedDiff => Instructions.unifiedDiff
  | searchReplace => Instructions.searchReplace
  | wholeFile => Instructions.wholeFile

def extract : EditFormat → (response : Text) → List Extracted
  | unifiedDiff, r => extractDiffs r
  | searchReplace, r => (MarkerBlock.all r).filterMap MarkerBlock.extract?
  | wholeFile, r =>
      (((FileBlock.ofMarkdown r).map FileBlock.toChange).filter (!·.isNoop)).map .candidate

def candidates (f : EditFormat) (response : Text) : List Change :=
  (f.extract response).filterMap Extracted.candidate?

end EditFormat

end Emend
