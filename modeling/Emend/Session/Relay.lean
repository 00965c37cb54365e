import Emend.Session.Run

namespace Emend

/-- A session's messages on their way to a listener that runs beside it. What the session sends
waits in a queue, and the listener is called with the JSON text of what has waited longest. -/
structure Relay (α : Type) where
  ahead : List (Effect α)
  queue : List (StreamMessage α) := []
  delivered : List Text := []
  events : List (Event α) := []

namespace Relay

inductive Mover
  | session
  | listener
deriving DecidableEq

variable {α : Type} [Numeral α]

/-- The listener's calls are numbered from zero, and `throws` has what a call throws. -/
def step (throws : Nat → Option Text) (r : Relay α) : Mover → Relay α
  | .session =>
      match r.ahead with
      | [] => r
      | .send m :: es => { r with ahead := es, queue := r.queue ++ [m] }
      | .report e :: es => { r with ahead := es, events := r.events ++ [e] }
  | .listener =>
      match r.queue with
      | [] => r
      | m :: ms =>
          { r with
            queue := ms
            delivered := r.delivered ++ [m.jsonText]
            events := r.events ++ ((throws r.delivered.length).map .listenerFailed).toList }

def run (throws : Nat → Option Text) (r : Relay α) (movers : List Mover) : Relay α :=
  movers.foldl (step throws) r

end Relay

inductive StreamError
  | unreadable
  | session (cause : Text)

/-- A call that streams a session. It answers once the session has returned and the listener's loop
has ended. -/
structure Streaming (α : Type) where
  relay : Relay α
  returned : Option (Except Text (List (InstructionResult α))) := none
  drained : Bool := false

namespace Streaming

variable {α : Type}

def start (session : SessionRun α) : Streaming α := { relay := { ahead := session.effects } }

def callbacks (c : Streaming α) : List Text := c.relay.delivered

def afterwards (session : SessionRun α) : List Relay.Mover :=
  List.replicate (session.effects.length + 1) .session ++
    List.replicate (session.messages.length + 1) .listener

variable [Numeral α]

def step (throws : Nat → Option Text)
    (outcome : Option (Except Text (List (InstructionResult α)))) (c : Streaming α) :
    Relay.Mover → Streaming α
  | .session =>
      { c with
        relay := c.relay.step throws .session
        returned := if c.relay.ahead.isEmpty then outcome else c.returned }
  | .listener =>
      { c with
        relay := c.relay.step throws .listener
        drained := if c.relay.queue.isEmpty then c.returned.isSome else c.drained }

def run (throws : Nat → Option Text)
    (outcome : Option (Except Text (List (InstructionResult α)))) (c : Streaming α)
    (movers : List Relay.Mover) : Streaming α :=
  movers.foldl (step throws outcome) c

def answerOf : Except Text (List (InstructionResult α)) → Except StreamError Text
  | .ok results => .ok (InstructionResult.listText results)
  | .error cause => .error (.session cause)

def answer? (c : Streaming α) : Option (Except StreamError Text) :=
  if c.drained then c.returned.map answerOf else none

end Streaming

end Emend
