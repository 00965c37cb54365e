import Emend.Client.EventStream
import Emend.Event
import Emend.Session.Run

namespace Emend

open Json

structure ModelConfig where
  apiKey : Text := []
  model : Text := "claude-3-5-sonnet-20241022".toList
  maxTokens : Nat := 4096
  baseUrl : Text := "https://api.anthropic.com/v1/messages".toList

namespace ModelConfig

def toJson (c : ModelConfig) : Value :=
  .record [("api_key".toList, .text c.apiKey), ("model".toList, .text c.model),
    ("max_tokens".toList, .nat c.maxTokens), ("base_url".toList, .text c.baseUrl)]

def ofJson? (v : Value) : Option ModelConfig := do
  let r ← v.record? ["api_key", "model", "max_tokens", "base_url"]
  let d : ModelConfig := {}
  some ⟨← r.withDefault "api_key" d.apiKey Value.text?, ← r.withDefault "model" d.model Value.text?,
    ← r.withDefault "max_tokens" d.maxTokens (Value.natBelow? (pow2 32)),
    ← r.withDefault "base_url" d.baseUrl Value.text?⟩

inductive EnvError
  | keyMissing

def EnvError.message : EnvError → Text
  | keyMissing => "ANTHROPIC_API_KEY environment variable not set".toList

def ofEnvironment (key model : Option Text) : Except EnvError ModelConfig :=
  match key with
  | none => .error .keyMissing
  | some key =>
      let c : ModelConfig := { apiKey := key }
      .ok { c with model := model.getD c.model }

end ModelConfig

structure HttpRequest where
  headers : List (Text × Text)
  body : Text

/-- An answer as it arrives. A body that is cut ends before its end. If the answer or the plan in it
cannot be read, `causes` is what its readers say. -/
structure HttpAnswer where
  status : Nat
  chunks : List Bytes
  cut : Bool
  causes : List Text := []

inductive ClientError
  | badHeader
  | refused (body : Text)
  | unreadable (causes : List Text)

def ClientError.message : ClientError → Text
  | badHeader => withCauses "builder error".toList ["failed to parse header value".toList]
  | refused body => "API request failed: ".toList ++ body
  | unreadable causes => withCauses "error decoding response body".toList causes

structure Exchange where
  request : Option HttpRequest
  pieces : List Text
  notes : List ClientNote
  outcome : Except ClientError Text
  causes : List Text

namespace Exchange

def failure (e : Exchange) : Except Text Text :=
  match e.outcome with
  | .ok text => .ok text
  | .error err => .error err.message

def toReply (e : Exchange) : Reply :=
  ⟨e.pieces.map .chunk ++ e.notes.map .note, e.failure⟩

def toPlanReply (e : Exchange) : PlanReply := ⟨e.notes, e.failure, e.causes⟩

end Exchange

namespace ModelClient

def headerSafe (s : Text) : Bool := s.all fun c => c == '\t' || 32 ≤ c.toNat && c.toNat != 127

variable (config : ModelConfig)

def body (system user : Text) (stream : Bool) : Value :=
  .record [("model".toList, .text config.model), ("system".toList, .text system),
    ("messages".toList, .array [.record [("role".toList, .text "user".toList),
      ("content".toList, .text user)]]),
    ("max_tokens".toList, .nat config.maxTokens), ("stream".toList, .bool stream)]

def request (system user : Text) (stream : Bool) : HttpRequest :=
  { headers := [("accept".toList, "application/json".toList),
      ("content-type".toList, "application/json".toList), ("x-api-key".toList, config.apiKey),
      ("anthropic-version".toList, "2023-06-01".toList)]
    body := (body config system user stream).render }

def partText? (v : Value) : Option Text := do
  let r ← v.record? ["text"]
  r.withDefault "text" [] Value.text?

def answerText? (bytes : Bytes) : Option Text := do
  let v ← readUnits? (Utf8.units bytes)
  let r ← v.record? ["content"]
  let parts ← r.required "content" (Value.list? partText?)
  some parts.flatten

def refusal (answer : HttpAnswer) : ClientError :=
  if answer.cut then .unreadable answer.causes else .refused (decodeMarked answer.chunks.flatten)

/-- The first part of a call, which ends it unless the answer reports success. -/
def send (answer : HttpAnswer) (system user : Text) (stream : Bool) (go : HttpRequest → Exchange) :
    Exchange :=
  if headerSafe config.apiKey then
    let sent := request config system user stream
    if answer.status = 200 then go sent
    else
      let e := refusal answer
      let notes : List ClientNote := match e with
        | .refused body => [.refused body]
        | _ => []
      ⟨some sent, [], notes, .error e, answer.causes⟩
  else ⟨none, [], [], .error .badHeader, answer.causes⟩

def complete (answer : HttpAnswer) (system user : Text) : Exchange :=
  send config answer system user false fun sent =>
    let text? := if answer.cut then none else answerText? answer.chunks.flatten
    let outcome := match text? with
      | some text => .ok text
      | none => .error (.unreadable answer.causes)
    ⟨some sent, [], [], outcome, answer.causes⟩

def stream (answer : HttpAnswer) (system user : Text) : Exchange :=
  send config answer system user true fun sent =>
    let pieces := EventStream.pieces answer.chunks answer.cut
    if answer.cut then
      ⟨some sent, pieces, [], .error (.unreadable answer.causes), answer.causes⟩
    else
      let text := pieces.flatten
      ⟨some sent, pieces, [.streamed (Text.byteLength text) config.model], .ok text,
        answer.causes⟩

end ModelClient

end Emend
