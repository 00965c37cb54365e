import Emend.Client.ModelClient
import Emend.Session.Relay
import Emend.Wire.Policy

namespace Emend.Service

open Json

variable {α : Type} [Score α] [Numeral α]

def policyOf? (json : Text) : Option (ReconcilePolicy α) :=
  if json.blank then some .standard else (read? json).bind ReconcilePolicy.ofJson?

def inputs? (filesJson policyJson : Text) : Option (FileSet × ReconcilePolicy α) := do
  let files ← (read? filesJson).bind FileSet.ofJson?
  some (files, ← policyOf? policyJson)

/-- Starting the service reports when events already go somewhere else. -/
def startEvents (reporterSet : Bool) : List (Event α) :=
  if reporterSet then [.reporterInPlace] else []

def reconcileText? (α : Type) [Score α] [Numeral α] (filesJson response policyJson : Text) :
    Option Text := do
  let (files, policy) ← inputs? (α := α) filesJson policyJson
  some (reconcile policy files response).toJson.render

def reconcileTextEvents (reporterSet : Bool) (filesJson response policyJson : Text) :
    List (Event α) :=
  startEvents reporterSet ++
    match inputs? filesJson policyJson with
    | none => []
    | some (files, policy) => reconcileEvents policy files response

structure Streamed (α : Type) where
  requests : List HttpRequest
  messages : List Text
  events : List (Event α)
  outcome : Except StreamError Text

/-- The calls of a session: the plan's, and then one for each instruction. Answers are numbered
in the order of the calls. -/
def exchanges (config : ModelConfig) (session : Session α) (request : EditRequest)
    (answers : Nat → HttpAnswer) : Exchange × List Exchange :=
  let files := FileSet.ofSnippets request.snippets
  let call := Session.planCall files request.request
  let planning := ModelClient.complete config (answers 0) call.system call.user
  match planning.toPlanReply.plan with
  | .error _ => (planning, [])
  | .ok plan =>
      (planning, plan.instructions.zipIdx.map fun (instruction, i) =>
        let call := session.editCall files instruction
        ModelClient.stream config (answers (i + 1)) call.system call.user)

/-- Runs a session for a request and calls the listener with every message. -/
def streamEdits (reporterSet : Bool) (requestJson apiKey : Text) (answers : Nat → HttpAnswer)
    (throws : Nat → Option Text) : Streamed α :=
  let opening : List (Event α) := startEvents reporterSet ++ [.sessionStarted]
  match (read? requestJson).bind EditRequest.ofJson? with
  | none => ⟨[], [], opening, .error .unreadable⟩
  | some request =>
      let s : Session α := { policy := .standard }
      let (planning, edits) := exchanges { apiKey := apiKey } s request answers
      let turns := Schedule.inTurn (edits.map Exchange.toReply)
      let session := s.run .stays request planning.toPlanReply turns
      let call :=
        Streaming.run throws session.outcome (.start session) (Streaming.afterwards session)
      { requests := (planning :: edits).filterMap Exchange.request
        messages := call.callbacks
        events := opening ++ call.relay.events
        outcome := call.answer?.getD (.error (.session [])) }

end Emend.Service
