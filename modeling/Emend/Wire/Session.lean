import Emend.Session.Message
import Emend.Wire.Edit

namespace Emend

open Json

namespace Plan

def fields : List Field :=
  ["message", { name := "editInstructions".toList, aliases := ["edit_instructions".toList] }]

def toFields (p : Plan) : List (Text × Value) :=
  [("message".toList, .text p.message),
    ("editInstructions".toList, .array (p.instructions.map Value.text))]

def toJson (p : Plan) : Value := .record p.toFields

/-- Both fields may be left out, and the second has two spellings. -/
def ofJson? (v : Value) : Option Plan := do
  let r ← v.record? fields
  some ⟨← r.withDefault "message" [] Value.text?,
    ← r.withDefault "editInstructions" [] (Value.list? Value.text?)⟩

end Plan

namespace EditRequest

def toJson (q : EditRequest) : Value :=
  .record [("snippets".toList, .array (q.snippets.map Snippet.toJson)),
    ("request".toList, .text q.request)]

def ofJson? (v : Value) : Option EditRequest := do
  let r ← v.record? ["snippets", "request"]
  some ⟨← r.withDefault "snippets" [] (Value.list? Snippet.ofJson?),
    ← r.withDefault "request" [] Value.text?⟩

end EditRequest

section

variable {α : Type} [Numeral α]

namespace StreamMessage

def toJson : StreamMessage α → Value
  | progress index text =>
      .record [("type".toList, .text "progress".toList), ("index".toList, .nat index),
        ("text".toList, .text text)]
  | plan p => .record (("type".toList, .text "plan".toList) :: p.toFields)
  | change index changes =>
      .record [("type".toList, .text "change".toList), ("index".toList, .nat index),
        ("changes".toList, .array (changes.map Change.toJson))]
  | error index message detail =>
      .record ([("type".toList, .text "error".toList), ("index".toList, Value.orNull .nat index),
        ("message".toList, .text message)] ++
        match detail with
        | none => []
        | some e => [("detail".toList, e.toJson)])

def ofFields? (kind : Text) (v : Value) : Option (StreamMessage α) :=
  if kind = "progress".toList then do
    let r ← v.record? ["index", "text"]
    some (.progress (← r.required "index" Value.word?) (← r.required "text" Value.text?))
  else if kind = "plan".toList then (Plan.ofJson? v).map .plan
  else if kind = "change".toList then do
    let r ← v.record? ["index", "changes"]
    some (.change (← r.required "index" Value.word?)
      (← r.required "changes" (Value.list? Change.ofJson?)))
  else if kind = "error".toList then do
    let r ← v.record? ["index", "message", "detail"]
    some (.error (← r.optional "index" Value.word?) (← r.required "message" Value.text?)
      (← r.optional "detail" ReconcileError.ofKeptJson?))
  else none

def ofJson? (v : Value) : Option (StreamMessage α) :=
  (v.tagged? (inRange α) 0 "type").bind fun (kind, fields) => ofFields? kind fields

def jsonText (m : StreamMessage α) : Text := m.toJson.render

end StreamMessage

namespace InstructionResult

def toJson (r : InstructionResult α) : Value :=
  .record [("index".toList, .nat r.index), ("instruction".toList, .text r.instruction),
    ("reconciliation".toList, r.reconciliation.toJson),
    ("error".toList, Value.orNull .text r.error)]

def ofJson? (v : Value) : Option (InstructionResult α) := do
  let r ← v.record? ["index", "instruction", "reconciliation", "error"]
  some ⟨← r.required "index" Value.word?, ← r.required "instruction" Value.text?,
    ← r.required "reconciliation" (Reconciliation.ofJson? 1), ← r.optional "error" Value.text?⟩

def listText (rs : List (InstructionResult α)) : Text := (Value.array (rs.map toJson)).render

end InstructionResult

end

end Emend
