import Emend.Json.Record
import Emend.Reconcile

namespace Emend

open Json

def Snippet.toJson (s : Snippet) : Value :=
  .record [("filepath".toList, .text s.path), ("code".toList, .text s.code),
    ("language".toList, .text s.language)]

def Snippet.ofJson? (v : Value) : Option Snippet := do
  let r ← v.record? ["filepath", "code", "language"]
  some ⟨← r.required "filepath" Value.text?, ← r.required "code" Value.text?,
    ← r.withDefault "language" [] Value.text?⟩

def Snapshot.toJson (f : Snapshot) : Value :=
  .record [("filepath".toList, .text f.path), ("content".toList, .text f.content)]

def Snapshot.ofJson? (v : Value) : Option Snapshot := do
  let r ← v.record? ["filepath", "content"]
  some ⟨← r.required "filepath" Value.text?, ← r.required "content" Value.text?⟩

def FileSet.toJson (files : FileSet) : Value := .array (files.map Snapshot.toJson)

def FileSet.ofJson? (v : Value) : Option FileSet := v.list? Snapshot.ofJson?

def Change.toJson (c : Change) : Value :=
  .record [("filepath".toList, .text c.path), ("searchBlock".toList, .text c.search),
    ("replaceBlock".toList, .text c.replacement)]

def Change.ofJson? (v : Value) : Option Change := do
  let r ← v.record? ["filepath", "searchBlock", "replaceBlock"]
  some ⟨← r.required "filepath" Value.text?, ← r.required "searchBlock" Value.text?,
    ← r.required "replaceBlock" Value.text?⟩

section

variable {α : Type} [Numeral α]

def inRange (α : Type) [Numeral α] (l : Literal) : Bool := (Numeral.ofLiteral? l : Option α).isSome

namespace ReconcileError

def toJson : ReconcileError α → Value
  | noMatch path score search =>
      .record [("kind".toList, .text "noMatch".toList), ("filepath".toList, .text path),
        ("best_score".toList, .numeral score), ("search_block".toList, .text search)]
  | missingSearch path replacement =>
      .record [("kind".toList, .text "missingSearch".toList), ("filepath".toList, .text path),
        ("replace_block".toList, .text replacement)]

def kinds : List Text := ["noMatch".toList, "missingSearch".toList]

def ofFields? (kind : Text) (v : Value) : Option (ReconcileError α) :=
  if kind = "noMatch".toList then do
    let r ← v.record? ["filepath", "best_score", "search_block"]
    some (.noMatch (← r.required "filepath" Value.text?)
      (← r.required "best_score" Value.numeral?) (← r.required "search_block" Value.text?))
  else if kind = "missingSearch".toList then do
    let r ← v.record? ["filepath", "replace_block"]
    some (.missingSearch (← r.required "filepath" Value.text?)
      (← r.required "replace_block" Value.text?))
  else none

/-- `outer` counts the arrays and objects around the error. -/
def ofJson? (outer : Nat) (v : Value) : Option (ReconcileError α) :=
  (v.tagged? (inRange α) outer "kind").bind fun (kind, fields) => ofFields? kind fields

def ofKeptJson? (v : Value) : Option (ReconcileError α) :=
  (v.untag? (Value.keptKind? kinds) "kind").bind fun (kind, fields) => ofFields? kind fields

end ReconcileError

namespace Reconciliation

def toJson (r : Reconciliation α) : Value :=
  .record [("changes".toList, .array (r.changes.map Change.toJson)),
    ("failures".toList, .array (r.failures.map ReconcileError.toJson))]

def ofJson? (outer : Nat) (v : Value) : Option (Reconciliation α) := do
  let r ← v.record? ["changes", "failures"]
  some ⟨← r.required "changes" (Value.list? Change.ofJson?),
    ← r.required "failures" (Value.list? (ReconcileError.ofJson? (outer + 2)))⟩

end Reconciliation

end

end Emend
