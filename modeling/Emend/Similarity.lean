import Emend.Score
import Emend.Text.Basic

namespace Emend

/-- From the row of a text against `t` to the row of the text with `a` in front. A row holds the
distance to every suffix of `t`, the longest suffix first. -/
def editStep (a : Char) : Text → List Nat → List Nat
  | [], row => [row.headD 0 + 1]
  | b :: t, row =>
      let rest := editStep a t row.tail
      (if a = b then row.tail.headD 0
        else 1 + min (row.tail.headD 0) (min (row.headD 0) (rest.headD 0))) :: rest

def editRow : (t s : Text) → List Nat
  | [], [] => [0]
  | _ :: t, [] => (t.length + 1) :: editRow t []
  | t, a :: s => editStep a t (editRow t s)

def editDistance (s t : Text) : Nat := (editRow t s).headD 0

def commonStep (a : Char) : Text → List Nat → List Nat
  | [], _ => [0]
  | b :: t, row =>
      let rest := commonStep a t row.tail
      (if a = b then row.tail.headD 0 + 1 else max (row.headD 0) (rest.headD 0)) :: rest

def commonRow (t : Text) : Text → List Nat
  | [] => List.replicate (t.length + 1) 0
  | a :: s => commonStep a t (commonRow t s)

def common (s t : Text) : Nat := (commonRow t s).headD 0

/-- Insertions and deletions that turn one text into the other. -/
def indel (s t : Text) : Nat := s.length + t.length - 2 * common s t

section

variable {α : Type} [Score α]

def similarity (s t : Text) : α :=
  if s = t then Score.ofNat 1
  else Score.ofNat 1 - Score.quotient (indel s t) (s.length + t.length)

end

/-- Blank lines and comment lines carry no weight when blocks are compared. A comment starts with
`#` or `//`, whatever its indentation. -/
def relevant (line : Text) : Bool :=
  match line.trim with
  | [] => false
  | '#' :: _ => false
  | '/' :: '/' :: _ => false
  | _ => true

def weight? (line : Text) : Option Text := if relevant line then some line.trim else none

def collapse (lines : List Text) : Text := [' '].intercalate (lines.filterMap weight?)

end Emend
