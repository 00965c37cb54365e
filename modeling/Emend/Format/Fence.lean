import Emend.Text.Search

namespace Emend

def fence : Text := ['\x60', '\x60', '\x60']

def pathLabels : List Text :=
  ["File:", "file:", "Filepath:", "filepath:", "Path:", "path:"].map String.toList

def dropLabel (name label : Text) : Text :=
  match Text.after? label name with
  | some rest => rest.trim
  | none => name

def isDecoration (c : Char) : Bool :=
  c == '[' || c == ']' || c == '\x60' || c == '*' || c == '"' || c == '\''

def undecorate (header : Text) : Text :=
  let unmarked : Text := header.trim.dropWhile (· == '#')
  let name := pathLabels.foldl dropLabel unmarked.trim
  let bare : Text := (name.dropEndWhile (· == ':')).dropWhile isDecoration
  (bare.dropEndWhile isDecoration).trim

def looksLikePath (name : Text) : Bool :=
  name != [] && !name.any isBlank && (name.contains '.' || name.contains '/') &&
    !name.endsWith fence

/-- The path that a header line names. -/
def pathOfHeader? (header : Text) : Option Text :=
  let name := undecorate header
  if looksLikePath name then some name else none

/-- A fenced block: the text before its opening fence, what stands beside that fence, and the
lines inside. -/
structure Fenced where
  before : Text
  info : Text
  body : Text
deriving DecidableEq

def isTagChar (c : Char) : Bool :=
  c.isAlphanum || c == '_' || c == '-' || c == '+' || c == '.' || c == '#'

def splitTag (raw : Text) : Text × Text :=
  match Text.cut? ['\n'] raw with
  | none => ([], raw)
  | some (first, rest) => if first.trimEnd.all isTagChar then (first, rest) else ([], raw)

def Fenced.ofRaw (before raw : Text) : Fenced :=
  let (tag, body) := splitTag raw
  ⟨before, tag.trim, body⟩

theorem length_lt_of_cut? {c : Char} {pat s before rest : Text}
    (h : Text.cut? (c :: pat) s = some (before, rest)) : rest.length < s.length := by
  rw [Text.eq_append_of_cut? h]
  simp only [List.length_append, List.length_cons]
  omega

def fencedFrom (language before s : Text) : List Fenced :=
  match h : Text.cut? (fence ++ language) s with
  | none => []
  | some (skipped, opened) =>
      match h' : Text.cut? fence opened with
      | none => []
      | some (raw, rest) =>
          have : rest.length < s.length :=
            Nat.lt_trans (length_lt_of_cut? h') (length_lt_of_cut? h)
          .ofRaw (before ++ skipped) raw ::
            fencedFrom language (before ++ skipped ++ fence ++ language ++ raw ++ fence) rest
termination_by s.length

def fenced (language markdown : Text) : List Fenced := fencedFrom language [] markdown

/-- Drops blank lines at the start and white space at the end. The first line that stays keeps
its indentation. -/
def trimBody (body : Text) : Text :=
  let indent := ((body.takeWhile isBlank).reverse.takeWhile (· != '\n')).reverse
  Text.trimEnd (indent ++ body.dropWhile isBlank)

def codeBlocks (language markdown : Text) : List Text :=
  (fenced language markdown).map fun b => trimBody b.body

structure FileBlock where
  path : Text
  code : Text
deriving DecidableEq

namespace FileBlock

/-- The last line before a block that is not blank names the file. A diff is no file. -/
def ofFenced? (b : Fenced) : Option FileBlock :=
  if b.info = "diff".toList then none
  else do
    let header ← b.before.lines.reverse.find? (!·.blank)
    let path ← pathOfHeader? header
    some ⟨path, trimBody b.body⟩

def ofMarkdown (markdown : Text) : List FileBlock := (fenced [] markdown).filterMap ofFenced?

end FileBlock

end Emend
