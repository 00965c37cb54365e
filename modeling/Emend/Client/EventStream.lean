import Emend.Json.Record
import Emend.Text.Encoding
import Emend.Text.Search

namespace Emend

namespace EventStream

open Json

def delta? (v : Value) : Option (Text × Text) := do
  let r ← v.record? ["type", "text"]
  some (← r.required "type" Value.text?, ← r.withDefault "text" [] Value.text?)

def eventText? (v : Value) : Option Text := do
  let r ← v.record? ["type", "delta"]
  let kind ← r.required "type" Value.text?
  let (deltaKind, text) ← (← r.optional "delta" delta?)
  if kind = "content_block_delta".toList ∧ deltaKind = "text_delta".toList then some text else none

def lineText? (line : Text) : Option Text := do
  let data ← Text.after? "data:".toList line
  if data.trimStart = "[DONE]".toList then none
  eventText? (← read? data.trimStart)

/-- The complete lines of a text, and what follows the last line feed. -/
def completeLines : Text → List Text × Text
  | [] => ([], [])
  | c :: s =>
      let (ls, rest) := completeLines s
      if c = '\n' then ([] :: ls, rest)
      else match ls with
        | [] => ([], c :: rest)
        | l :: ls => ((c :: l) :: ls, rest)

def feed (pending : Text) (chunk : Bytes) : List Text × Text :=
  let (ls, rest) := completeLines (pending ++ Utf8.decodeLossy chunk)
  (ls.filterMap fun l => lineText? l.trimEnd, rest)

def feedAll (pending : Text) : List Bytes → List Text × Text
  | [] => ([], pending)
  | chunk :: chunks =>
      let (texts, rest) := feed pending chunk
      let (more, last) := feedAll rest chunks
      (texts ++ more, last)

/-- The pieces of a stream. A stream that ends before its end loses its last line. -/
def pieces (chunks : List Bytes) (cut : Bool) : List Text :=
  let (texts, last) := feedAll [] chunks
  if cut then texts else texts ++ (lineText? last.trimEnd).toList

end EventStream

end Emend
