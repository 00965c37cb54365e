import Emend.Text.Encoding

namespace Emend

abbrev Name := Text

inductive Part
  | name (n : Name)
  | up
deriving DecidableEq

/-- What a path ends in. A path that ends in a slash or in a point means a directory. -/
inductive Ending
  | plain
  | slash
  | point
deriving DecidableEq

/-- A step, and the bytes of the path's text up to the end of the step. -/
structure Step where
  part : Part
  reach : Nat
deriving DecidableEq

structure Path where
  absolute : Bool
  steps : List Step
  ending : Ending
  size : Nat

def stretches : Text → List Text
  | [] => [[]]
  | c :: s =>
      if c = '/' then [] :: stretches s
      else match stretches s with
        | [] => [[c]]
        | t :: ts => (c :: t) :: ts

def Part.ofStretch? (s : Text) : Option Part :=
  if s = [] ∨ s = ['.'] then none
  else if s = ['.', '.'] then some .up
  else some (.name s)

def Step.ofStretches (start : Nat) : List Text → List Step
  | [] => []
  | s :: ss =>
      let stop := start + s.byteLength
      ((Part.ofStretch? s).map (⟨·, stop⟩)).toList ++ ofStretches (stop + 1) ss

namespace Path

def ofText (s : Text) : Path :=
  { absolute := s.head? == some '/'
    steps := Step.ofStretches 0 (stretches s)
    ending :=
      match ((stretches s).filter (· != [])).getLast? with
      | some ['.'] => .point
      | _ => if s.getLast?.all (· == '/') then .slash else .plain
    size := s.byteLength }

def parts (p : Path) : List Part := p.steps.map Step.part

def names (p : Path) : List Name :=
  p.parts.filterMap fun
    | .name n => some n
    | .up => none

def ofNames (directory : List Name) : Path :=
  ofText ('/' :: directory.flatMap (· ++ ['/']))

def inside (directory : List Name) (p : Path) : Path :=
  if p.absolute then p
  else
    let base := ofNames directory
    { p with
      absolute := true
      steps := base.steps ++ p.steps.map fun s => { s with reach := base.size + s.reach }
      size := base.size + p.size }

/-- Where parts lead if every entry on the way is a directory; above the top is the top. -/
def follow (at_ : List Name) : List Part → List Name
  | [] => at_
  | .name n :: ps => follow (at_ ++ [n]) ps
  | .up :: ps => follow at_.dropLast ps

def LiesBelow (directory : List Name) (p : Path) : Prop :=
  ∃ rest, rest ≠ [] ∧ follow [] (p.inside directory).parts = directory ++ rest

end Path

end Emend
