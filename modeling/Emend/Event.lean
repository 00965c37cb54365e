import Emend.Reconcile
import Emend.Text.Quoted

namespace Emend

/-- An error and what caused it, the outermost cause first. -/
def withCauses (error : Text) (causes : List Text) : Text :=
  [':', ' '].intercalate (error :: causes)

inductive Level
  | error
  | warn
  | info
  | debug

def Level.name : Level → Text
  | error => "error".toList
  | warn => "warn".toList
  | info => "info".toList
  | debug => "debug".toList

inductive ClientNote
  | refused (body : Text)
  | streamed (bytes : Nat) (model : Text)

inductive Event (α : Type)
  | client (n : ClientNote)
  /-- Events have gone somewhere else since before the program began. -/
  | reporterInPlace
  | sessionStarted
  | planning (files : Nat)
  | planFailed (cause : Text)
  | planned (instructions : Nat)
  | instructionFailed (index : Nat) (cause : Text)
  | sessionFinished (changes failedInstructions : Nat)
  | messageDiscarded
  | listenerFailed (thrown : Text)
  | skipped (s : Skipped)
  | extracted (candidates : Nat) (format : EditFormat)
  | farFromKnown (stated nearest : Text) (likeness : α)
  | newFile (path : Text)
  | matched (path : Text) (score : α)
  | dropped (e : ReconcileError α)

namespace Event

variable {α : Type}

def level : Event α → Level
  | client (.refused _) | planFailed _ | instructionFailed _ _ | listenerFailed _ => .error
  | reporterInPlace | dropped _ => .warn
  | sessionStarted | planning _ | planned _ | sessionFinished _ _ => .info
  | client (.streamed _ _) | messageDiscarded | skipped _ | extracted _ _ | farFromKnown _ _ _
  | newFile _ | matched _ _ => .debug

def message [Numeral α] : Event α → Text
  | client (.refused body) => "API request failed: ".toList ++ body
  | client (.streamed bytes model) =>
      "streamed ".toList ++ digitsOfNat bytes ++ " bytes from ".toList ++ model
  | reporterInPlace =>
      "failed to set tracing: a global default trace dispatcher has already been set".toList
  | sessionStarted => "start edit session".toList
  | planning files => "planning request over ".toList ++ digitsOfNat files ++ " files".toList
  | planFailed cause => "planning failed: ".toList ++ cause
  | planned n => "plan has ".toList ++ digitsOfNat n ++ " edit instructions".toList
  | instructionFailed index cause =>
      "edit instruction ".toList ++ digitsOfNat index ++ " failed: ".toList ++ cause
  | sessionFinished changes failed =>
      "session finished: ".toList ++ digitsOfNat changes ++ " changes, ".toList ++
        digitsOfNat failed ++ " failed instructions".toList
  | messageDiscarded => "stream receiver dropped, message discarded".toList
  | listenerFailed thrown => "stream callback failed: ".toList ++ thrown
  | skipped (.emptyHunk path) => "dropping empty hunk for ".toList ++ path.quoted
  | skipped (.unnamedBlock header) =>
      "no filepath in header ".toList ++ header.quoted ++ ", skipping block".toList
  | extracted n format =>
      digitsOfNat n ++ " candidate changes from ".toList ++ format.name ++ " response".toList
  | farFromKnown stated nearest likeness =>
      stated ++ " is not close to any known file (best ".toList ++ nearest ++ " at ".toList ++
        Numeral.twoPlaces likeness ++ "), treating as new".toList
  | newFile path => path ++ " is a new file".toList
  | matched path score =>
      "matched edit in ".toList ++ path ++ " with score ".toList ++ Numeral.twoPlaces score
  | dropped e => "dropping edit: ".toList ++ e.message

end Event

section

variable {α : Type}

def Placement.events : Placement α → List (Event α)
  | newFile c (some (nearest, likeness)) =>
      [.farFromKnown c.path nearest.path likeness, .newFile c.path]
  | newFile c none => [.newFile c.path]
  | wholeFile _ _ => []
  | block path found _ => [.matched path found.score]
  | failed _ => []

/-- The same where a failed candidate is dropped from a response. -/
def Placement.eventsInResponse (p : Placement α) : List (Event α) :=
  p.events ++ match p with
    | failed e => [.dropped e]
    | _ => []

def EditFormat.extractEvents (f : EditFormat) (response : Text) : List (Event α) :=
  ((f.extract response).filterMap Extracted.skipped?).map .skipped

variable [Score α] (p : ReconcilePolicy α) (files : FileSet)

def reconcileChangesEvents (format : EditFormat) (candidates : List Change) : List (Event α) :=
  (placements p format files candidates).flatMap Placement.eventsInResponse

def reconcileEvents (response : Text) : List (Event α) :=
  let candidates := p.editFormat.candidates response
  p.editFormat.extractEvents response ++
    .extracted candidates.length p.editFormat ::
      reconcileChangesEvents p files p.editFormat candidates

end

end Emend
