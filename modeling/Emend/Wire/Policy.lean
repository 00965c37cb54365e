import Emend.Json.Record
import Emend.Reconcile

namespace Emend

open Json

namespace EditFormat

def key : EditFormat → Text
  | unifiedDiff => "unified_diff".toList
  | searchReplace => "search_replace".toList
  | wholeFile => "whole_file".toList

def ofKey? (k : Text) : Option EditFormat :=
  [unifiedDiff, searchReplace, wholeFile].find? (·.key == k)

def toJson (f : EditFormat) : Value := .text f.key

def ofJson? : Value → Option EditFormat
  | .string (some k) => ofKey? k
  | .object [(some k, .null)] => ofKey? k
  | _ => none

end EditFormat

section

variable {α : Type} [Numeral α]

def MatchPolicy.toJson (p : MatchPolicy α) : Value :=
  .record [("window_tolerance".toList, .nat p.windowTolerance),
    ("body_weight".toList, .numeral p.bodyWeight),
    ("endpoint_weight".toList, .numeral p.endpointWeight),
    ("min_score".toList, .numeral p.minScore)]

def ReconcilePolicy.toJson (p : ReconcilePolicy α) : Value :=
  .record [("new_file_threshold".toList, .numeral p.newFileThreshold),
    ("edit_format".toList, p.editFormat.toJson), ("matcher".toList, p.matcher.toJson)]

variable [Score α]

def MatchPolicy.ofJson? (v : Value) : Option (MatchPolicy α) := do
  let r ← v.record? ["window_tolerance", "body_weight", "endpoint_weight", "min_score"]
  let d : MatchPolicy α := .standard
  some ⟨← r.withDefault "window_tolerance" d.windowTolerance Value.word?,
    ← r.withDefault "body_weight" d.bodyWeight Value.numeral?,
    ← r.withDefault "endpoint_weight" d.endpointWeight Value.numeral?,
    ← r.withDefault "min_score" d.minScore Value.numeral?⟩

def ReconcilePolicy.ofJson? (v : Value) : Option (ReconcilePolicy α) := do
  let r ← v.record? ["new_file_threshold", "edit_format", "matcher"]
  let d : ReconcilePolicy α := .standard
  some ⟨← r.withDefault "new_file_threshold" d.newFileThreshold Value.numeral?,
    ← r.withDefault "edit_format" d.editFormat EditFormat.ofJson?,
    ← r.withDefault "matcher" d.matcher MatchPolicy.ofJson?⟩

end

end Emend
