import Emend.Session.Plan

namespace Emend

inductive Signal
  | note (n : ClientNote)
  | chunk (text : Text)
  | finish (outcome : Except Text Text)

/-- All that one model call delivers: notes and chunks, then the end. -/
structure Reply where
  before : List Signal := []
  outcome : Except Text Text := .ok []

def Reply.signals (r : Reply) : List Signal := r.before ++ [.finish r.outcome]

structure Turn where
  call : Nat
  signal : Signal

inductive Listener
  | stays
  | hangsUpAfter (messages : Nat)

def Listener.hears {β : Type} : Listener → List β → List β
  | stays, ms => ms
  | hangsUpAfter n, ms => ms.take n

inductive Effect (α : Type)
  | send (m : StreamMessage α)
  | report (e : Event α)

namespace Effect

variable {α : Type}

def message? : Effect α → Option (StreamMessage α)
  | send m => some m
  | report _ => none

def event? : Effect α → Option (Event α)
  | send _ => none
  | report e => some e

/-- Once the listener has hung up, each further message is discarded, which is reported. -/
def toListener : Listener → List (Effect α) → List (Effect α)
  | _, [] => []
  | l, report e :: es => report e :: toListener l es
  | .stays, send m :: es => send m :: toListener .stays es
  | .hangsUpAfter 0, send _ :: es => report .messageDiscarded :: toListener (.hangsUpAfter 0) es
  | .hangsUpAfter (n + 1), send m :: es => send m :: toListener (.hangsUpAfter n) es

end Effect

structure Session (α : Type) where
  policy : ReconcilePolicy α
  directory : Text := ['.']

structure Call where
  streamed : Bool
  system : Text
  user : Text

namespace Session

variable {α : Type} (s : Session α) (files : FileSet)

def planCall (request : Text) : Call := ⟨false, Prompt.planSystem, Prompt.planUser files request⟩

def editCall (instruction : Text) : Call :=
  ⟨true, Prompt.editSystem s.policy.editFormat s.directory, Prompt.editUser files instruction⟩

variable [Score α]

def resultOf (index : Nat) (instruction : Text) : Except Text Text → InstructionResult α
  | .ok response => ⟨index, instruction, reconcile s.policy files response, none⟩
  | .error cause => ⟨index, instruction, .empty, some cause⟩

def outcome? (index : Nat) : List Turn → Option (Except Text Text)
  | [] => none
  | ⟨i, .finish o⟩ :: ts => if i = index then some o else outcome? index ts
  | _ :: ts => outcome? index ts

def results? (plan : Plan) (turns : List Turn) : Option (List (InstructionResult α)) :=
  plan.instructions.zipIdx.mapM fun (instruction, i) =>
    (outcome? i turns).map (s.resultOf files i instruction)

variable [Numeral α]

def react (index : Nat) : Signal → List (Effect α)
  | .note n => [.report (.client n)]
  | .chunk text => [.send (.progress index text)]
  | .finish (.error cause) =>
      [.report (.instructionFailed index cause), .send (.error (some index) cause none)]
  | .finish (.ok response) =>
      let r : Reconciliation α := reconcile s.policy files response
      (reconcileEvents s.policy files response).map .report ++
        .send (.change index r.changes) :: r.failures.map fun e => .send (.ofFailure index e)

def effects (turns : List Turn) : List (Effect α) :=
  turns.flatMap fun t => s.react files t.call t.signal

end Session

/-- What a session did, whom it called, and what came of it. Without an outcome, some call has
not ended. -/
structure SessionRun (α : Type) where
  effects : List (Effect α)
  calls : List Call
  outcome : Option (Except Text (List (InstructionResult α)))

namespace SessionRun

variable {α : Type} (r : SessionRun α)

def messages : List (StreamMessage α) := r.effects.filterMap Effect.message?

def events : List (Event α) := r.effects.filterMap Effect.event?

end SessionRun

namespace Session

variable {α : Type} [Score α] [Numeral α] (s : Session α)

def finished (results : List (InstructionResult α)) : Event α :=
  .sessionFinished (results.flatMap (·.reconciliation.changes)).length
    (results.filter (·.error.isSome)).length

def run (listener : Listener) (request : EditRequest) (reply : PlanReply) (turns : List Turn) :
    SessionRun α :=
  let files := FileSet.ofSnippets request.snippets
  let opening : List (Effect α) :=
    .report (.planning files.length) :: reply.notes.map fun n => .report (.client n)
  let call := planCall files request.request
  match reply.plan with
  | .error cause =>
      ⟨Effect.toListener listener
          (opening ++ [.report (.planFailed cause), .send (.error none cause none)]),
        [call], some (.error cause)⟩
  | .ok plan =>
      let told := opening ++ [.send (.plan plan), .report (.planned plan.instructions.length)] ++
        s.effects files turns
      let calls := call :: plan.instructions.map (s.editCall files)
      match s.results? files plan turns with
      | none => ⟨Effect.toListener listener told, calls, none⟩
      | some results =>
          ⟨Effect.toListener listener (told ++ [.report (finished results)]), calls,
            some (.ok results)⟩

end Session

def PlanReply.replies (r : PlanReply) (reply : Nat → Reply) : List Reply :=
  match r.plan with
  | .ok p => (List.range p.instructions.length).map reply
  | .error _ => []

namespace Schedule

def signalsOf (index : Nat) (turns : List Turn) : List Signal :=
  turns.filterMap fun t => if t.call = index then some t.signal else none

/-- A schedule that has every call deliver what it replies, and no other call anything. -/
def Delivers (replies : List Reply) (turns : List Turn) : Prop :=
  ∀ i, signalsOf i turns = ((replies[i]?).map Reply.signals).getD []

def inTurn (replies : List Reply) : List Turn :=
  replies.zipIdx.flatMap fun (r, i) => r.signals.map (⟨i, ·⟩)

def inRounds (replies : List Reply) : List Turn :=
  let all := replies.zipIdx.map fun (r, i) => r.signals.map (Turn.mk i)
  (List.range ((all.map List.length).foldl max 0)).flatMap fun round => all.filterMap (·[round]?)

end Schedule

end Emend
