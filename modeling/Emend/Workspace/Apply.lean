import Emend.Change
import Emend.Workspace.Disk

namespace Emend

inductive WorkspaceError
  | change (e : ApplyError)
  | io (e : IoError)

structure Workspace where
  root : List Name
  disk : Disk

namespace Workspace

def ofFiles (root : List Name) (files : List (Text × Bytes)) : Workspace :=
  { root
    disk := files.foldl (fun d (path, content) =>
      let at_ := root ++ (Path.ofText path).names
      if (Path.ofText path).ending = .plain then d.put at_ (.file content) else d.layDirectory at_)
      (Disk.empty.layDirectory root) }

variable (w : Workspace)

def entries : List (List Name × Option Bytes) :=
  match w.disk.find? w.root with
  | none => []
  | some e => e.listing

def makeRoom (p : Path) : Disk × Except IoError Unit :=
  match p.steps.reverse with
  | [] => (w.disk, .ok ())
  | _ :: before => w.disk.makeDirectories before

def updated (c : Change) (p : Path) : Except WorkspaceError Text :=
  match w.disk.readText p with
  | .error e => .error (.io e)
  | .ok content =>
      match c.apply content with
      | .error e => .error (.change e)
      | .ok t => .ok t

def write (p : Path) (content : Text) : Workspace × Except WorkspaceError Unit :=
  match w.disk.writeText p content with
  | .error e => (w, .error (.io e))
  | .ok d => ({ w with disk := d }, .ok ())

def apply (c : Change) : Workspace × Except WorkspaceError Unit :=
  let p := (Path.ofText c.path).inside w.root
  if c.createsFile then
    match w.makeRoom p with
    | (d, .error e) => ({ w with disk := d }, .error (.io e))
    | (d, .ok ()) => ({ w with disk := d } : Workspace).write p c.replacement
  else match w.updated c p with
    | .error e => (w, .error e)
    | .ok content => w.write p content

/-- Applies changes in order, each to what the one before it left. A change that fails does not
stop the others. -/
def applyAll (w : Workspace) : List Change → Workspace × List (Except WorkspaceError Unit)
  | [] => (w, [])
  | c :: cs =>
      let (w', r) := w.apply c
      let (w'', rs) := applyAll w' cs
      (w'', r :: rs)

end Workspace

end Emend
