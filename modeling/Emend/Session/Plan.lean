import Emend.Event
import Emend.Format.Fence
import Emend.Wire.Session

namespace Emend

inductive PlanError
  | noObject
  | unreadable (causes : List Text)

def PlanError.message : PlanError → Text
  | noObject => "plan response contains no JSON object".toList
  | unreadable causes => withCauses "failed to parse plan response".toList causes

namespace Plan

def read? (t : Text) : Option Plan := (Json.read? t).bind Plan.ofJson?

def braced? (t : Text) : Option Text :=
  let opened : Text := t.dropWhile (· != '\x7b')
  match opened.dropEndWhile (· != '\x7d') with
  | [] => none
  | s => some s

/-- Planners often put their JSON into a fenced block or into prose, so the whole answer, every
fenced block and the text between the outermost braces are tried in turn. What the reader finds
wrong with the last of these is given in `causes`. -/
def ofResponse (response : Text) (causes : List Text) : Except PlanError Plan :=
  let trimmed := response.trim
  match (trimmed :: codeBlocks [] trimmed).findSome? read? with
  | some p => .ok p
  | none =>
      match braced? trimmed with
      | none => .error .noObject
      | some s =>
          match read? s with
          | some p => .ok p
          | none => .error (.unreadable causes)

end Plan

/-- The planner's answer, with what the reader of plans finds wrong with it if it finds anything. -/
structure PlanReply where
  notes : List ClientNote := []
  outcome : Except Text Text
  causes : List Text := []

def PlanReply.plan (r : PlanReply) : Except Text Plan :=
  match r.outcome with
  | .error cause => .error cause
  | .ok response =>
      match Plan.ofResponse response r.causes with
      | .ok p => .ok p
      | .error e => .error e.message

end Emend
