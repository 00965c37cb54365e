import Emend.Text.Basic

namespace Emend

structure Snapshot where
  path : Text
  content : Text
deriving DecidableEq

/-- A piece of a file as an editor selects it. -/
structure Snippet where
  path : Text
  code : Text
  language : Text
deriving DecidableEq

abbrev FileSet := List Snapshot

def snippetSeparator : Text := "\n----\n".toList

namespace FileSet

def get? (files : FileSet) (path : Text) : Option Snapshot := files.find? (·.path == path)

/-- Replaces the content of the first file with the path, or adds the file at the end. -/
def insert : FileSet → Text → Text → FileSet
  | [], path, content => [⟨path, content⟩]
  | f :: fs, path, content =>
      if f.path = path then ⟨path, content⟩ :: fs else f :: insert fs path content

def paths (files : FileSet) : List Text := files.map Snapshot.path

def ofList (files : List (Text × Text)) : FileSet :=
  files.foldl (fun fs (path, content) => fs.insert path content) []

def gather : List (Text × List Text) → Snippet → List (Text × List Text)
  | [], s => [(s.path, [s.code])]
  | (path, codes) :: groups, s =>
      if path = s.path then (path, codes ++ [s.code]) :: groups
      else (path, codes) :: gather groups s

/-- One file for each path, in the order in which the paths come first, with its pieces joined. -/
def ofSnippets (snippets : List Snippet) : FileSet :=
  ofList ((snippets.foldl gather []).map fun (path, codes) =>
    (path, snippetSeparator.intercalate codes))

end FileSet

end Emend
