import Emend.Workspace.Path

namespace Emend

inductive IoError
  | notFound
  | invalidData
  | notADirectory
  | alreadyExists
  | isADirectory
  | invalidFilename
  | invalidInput
deriving DecidableEq

inductive Entry
  | file (content : Bytes)
  | directory (items : List (Name × Entry))

namespace Entry

def isDirectory : Entry → Bool
  | directory _ => true
  | file _ => false

def content? : Entry → Option Bytes
  | directory _ => none
  | file content => some content

def setItem (n : Name) (e : Entry) : List (Name × Entry) → List (Name × Entry)
  | [] => [(n, e)]
  | (m, f) :: items =>
      if n = m then (n, e) :: items
      else if n < m then (n, e) :: (m, f) :: items
      else (m, f) :: setItem n e items

def find? : Entry → (at_ : List Name) → Option Entry
  | e, [] => some e
  | file _, _ :: _ => none
  | directory items, n :: ns =>
      match items.lookup n with
      | none => none
      | some e => find? e ns

def put : Entry → (at_ : List Name) → (new : Entry) → Entry
  | _, [], new => new
  | file content, _ :: _, _ => file content
  | directory items, n :: ns, new =>
      directory (setItem n (put ((items.lookup n).getD (directory [])) ns new) items)

mutual

def listing : Entry → List (List Name × Option Bytes)
  | file _ => []
  | directory items => itemsListing items

def itemsListing : List (Name × Entry) → List (List Name × Option Bytes)
  | [] => []
  | i :: is => itemListing i ++ itemsListing is

def itemListing : Name × Entry → List (List Name × Option Bytes)
  | (n, e) => ([n], e.content?) :: (listing e).map fun (at_, content) => (n :: at_, content)

end

end Entry

abbrev Disk := Entry

/-- A way down from the top: the entries passed, with their names, the last first. -/
abbrev Trail := List (Name × Entry)

namespace Trail

def names (t : Trail) : List Name := (t.map Prod.fst).reverse

def entry (top : Disk) : Trail → Entry
  | [] => top
  | (_, e) :: _ => e

end Trail

namespace Disk

def empty : Disk := .directory []

variable (d : Disk)

def nameLimit : Nat := 255

def tooLong (n : Name) : Bool := nameLimit < n.byteLength

/-- The texts of paths are shorter than this many bytes. -/
def pathLimit : Nat := 4096

def holdsZero (steps : List Step) : Bool :=
  steps.any fun s =>
    match s.part with
    | .name n => List.contains n '\x00'
    | .up => false

def accepted (steps : List Step) (size : Nat) : Except IoError Unit :=
  if holdsZero steps then .error .invalidInput
  else if pathLimit ≤ size then .error .invalidFilename
  else .ok ()

/-- Goes on along the steps. Something has to be there, and all before it are directories. -/
def walk (trail : Trail) : List Step → Except IoError Trail
  | [] => .ok trail
  | s :: ss =>
      match trail.entry d, s.part with
      | .file _, _ => .error .notADirectory
      | .directory _, .up => walk trail.tail ss
      | .directory items, .name n =>
          if tooLong n then .error .invalidFilename
          else match items.lookup n with
            | none => .error .notFound
            | some e => walk ((n, e) :: trail) ss

def walkInto (steps : List Step) : Except IoError (List Name × List (Name × Entry)) :=
  match d.walk [] steps with
  | .error e => .error e
  | .ok trail =>
      match trail.entry d with
      | .file _ => .error .notADirectory
      | .directory items => .ok (trail.names, items)

def leadsToDirectory (steps : List Step) (size : Nat) : Bool :=
  (accepted steps size).toBool && (d.walkInto steps).toBool

def makeDirectory : List Step → Except IoError Disk
  | [] => .error .alreadyExists
  | s :: before =>
      match accepted (s :: before) s.reach, d.walkInto before.reverse with
      | .error e, _ => .error e
      | _, .error e => .error e
      | .ok (), .ok (at_, items) =>
          match s.part with
          | .up => .error .alreadyExists
          | .name n =>
              if tooLong n then .error .invalidFilename
              else if (items.lookup n).isSome then .error .alreadyExists
              else .ok (d.put (at_ ++ [n]) (.directory []))

def orThere (s : Step) (before : List Step) : Except IoError Disk → Disk × Except IoError Unit
  | .ok d' => (d', .ok ())
  | .error e =>
      (d, if d.leadsToDirectory (s :: before).reverse s.reach then .ok () else .error e)

/-- Makes a directory and those above it that are missing. The last step stands first. When a
directory cannot be made, those above it stay. -/
def makeDirectories (d : Disk) : List Step → Disk × Except IoError Unit
  | [] => (d, .ok ())
  | s :: before =>
      match d.makeDirectory (s :: before) with
      | .error .notFound =>
          match makeDirectories d before with
          | (d', .error e) => (d', .error e)
          | (d', .ok ()) => d'.orThere s before (d'.makeDirectory (s :: before))
      | r => d.orThere s before r

def readText (p : Path) : Except IoError Text :=
  match accepted p.steps p.size, d.walk [] p.steps with
  | .error e, _ => .error e
  | _, .error e => .error e
  | .ok (), .ok trail =>
      match trail.entry d with
      | .directory _ => .error .isADirectory
      | .file content =>
          if p.ending = .plain then
            match Utf8.decode? content with
            | some t => .ok t
            | none => .error .invalidData
          else .error .notADirectory

def writeText (p : Path) (content : Text) : Except IoError Disk :=
  match accepted p.steps p.size with
  | .error e => .error e
  | .ok () =>
      if p.ending = .point then
        match d.walkInto p.steps with
        | .error e => .error e
        | .ok _ => .error .isADirectory
      else match p.steps.reverse with
        | [] => .error .isADirectory
        | s :: before =>
            match d.walkInto before.reverse with
            | .error e => .error e
            | .ok (at_, items) =>
                match s.part, p.ending with
                | .name n, .plain =>
                    if tooLong n then .error .invalidFilename
                    else if (items.lookup n).any Entry.isDirectory then .error .isADirectory
                    else .ok (d.put (at_ ++ [n]) (.file (Utf8.encode content)))
                | _, _ => .error .isADirectory

def layDirectory (at_ : List Name) : Disk :=
  match d.find? at_ with
  | some _ => d
  | none => d.put at_ (.directory [])

end Disk

end Emend
