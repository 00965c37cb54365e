import Emend.Proofs.Client.EventStream
import Emend.Proofs.Text.Lines

namespace Emend

namespace EventStream

def textOf (line : Text) : Option Text := lineText? line.trimEnd

theorem completeLines_concat (s : Text) :
    (completeLines s).1 ++ [(completeLines s).2] = s.pieces := by
  induction s with
  | nil => rfl
  | cons c s ih =>
      rw [completeLines_cons, Text.pieces, ← ih]
      by_cases hc : c = '\n'
      · rw [if_pos hc, if_pos hc]
        rfl
      · rw [if_neg hc, if_neg hc]
        cases (completeLines s).1 with
        | nil => rfl
        | cons l ls => rfl

theorem dropLast_pieces (s : Text) : s.pieces.dropLast = (completeLines s).1 := by
  rw [← completeLines_concat, List.dropLast_concat]

theorem dropLast_pieces_isPrefix (s t : Text) :
    s.pieces.dropLast <+: (s ++ t).pieces.dropLast := by
  rw [dropLast_pieces, dropLast_pieces, completeLines_append]
  exact List.prefix_append _ _

/-- After any chunks, the lines of the text so far have been handed over and its rest waits. -/
theorem feedAll_nil (chunks : List Bytes) :
    feedAll [] chunks =
      ((completeLines (heard chunks)).1.filterMap textOf, (completeLines (heard chunks)).2) :=
  feedAll_eq List.not_mem_nil chunks

theorem pieces_of_cut (chunks : List Bytes) :
    pieces chunks true = (heard chunks).pieces.dropLast.filterMap textOf := by
  rw [pieces, feedAll_nil, dropLast_pieces]
  rfl

theorem pieces_of_ended (chunks : List Bytes) :
    pieces chunks false = (heard chunks).pieces.filterMap textOf := by
  rw [pieces, feedAll_nil, ← completeLines_concat (heard chunks), List.filterMap_append]
  have hlast (rest : Text) : [rest].filterMap textOf = (lineText? rest.trimEnd).toList := by
    rw [List.filterMap_cons, textOf]
    cases lineText? rest.trimEnd <;> rfl
  rw [hlast]
  rfl

theorem heard_append (chunks more : List Bytes) :
    heard (chunks ++ more) = heard chunks ++ heard more := List.flatMap_append

/-- What a broken stream has handed over stays the beginning of whatever comes of it. -/
theorem pieces_isPrefix (chunks more : List Bytes) (cut : Bool) :
    pieces chunks true <+: pieces (chunks ++ more) cut := by
  have hlines := (dropLast_pieces_isPrefix (heard chunks) (heard more)).filterMap textOf
  rw [← heard_append] at hlines
  rw [pieces_of_cut]
  cases cut with
  | true => rwa [pieces_of_cut]
  | false =>
      rw [pieces_of_ended]
      have hlast := List.dropLast_prefix (Text.pieces (heard (chunks ++ more)))
      exact hlines.trans (hlast.filterMap textOf)

end EventStream

namespace ModelClient

open EventStream

variable (config : ModelConfig) (system user : Text) (causes : List Text)

theorem stream_of_safe (h : headerSafe config.apiKey = true) (chunks : List Bytes) (cut : Bool) :
    (stream config ⟨200, chunks, cut, causes⟩ system user).pieces = pieces chunks cut ∧
      (stream config ⟨200, chunks, cut, causes⟩ system user).outcome =
        if cut then .error (.unreadable causes) else .ok (pieces chunks cut).flatten := by
  simp only [stream, send, h, if_true]
  cases cut with
  | true => exact ⟨rfl, rfl⟩
  | false => exact ⟨rfl, rfl⟩

/-- A streaming call hands over what the lines of the arriving text carry, each line once and in
order, and joins it to the answer when the stream ends. When the stream breaks, the call fails: the
rest behind the last line feed is not looked at, and nothing was handed over that any continuation
of the same chunks would not hand over first. -/
theorem stream_delivers (h : headerSafe config.apiKey = true) (chunks : List Bytes) :
    let lines := (heard chunks).pieces
    let texts (ls : List Text) : List Text := ls.filterMap fun l => lineText? l.trimEnd
    let ended := stream config ⟨200, chunks, false, causes⟩ system user
    let broken := stream config ⟨200, chunks, true, causes⟩ system user
    ended.pieces = texts lines ∧ ended.outcome = .ok (texts lines).flatten ∧
      broken.pieces = texts lines.dropLast ∧ broken.outcome = .error (.unreadable causes) ∧
      ∀ more cut, broken.pieces <+: (stream config ⟨200, chunks ++ more, cut, causes⟩ system user).pieces := by
  intro lines texts ended broken
  obtain ⟨hended, hanswer⟩ := stream_of_safe config system user causes h chunks false
  obtain ⟨hbroken, hfailure⟩ := stream_of_safe config system user causes h chunks true
  refine ⟨hended.trans (pieces_of_ended chunks), ?_, hbroken.trans (pieces_of_cut chunks),
    hfailure, fun more cut => ?_⟩
  · rw [pieces_of_ended] at hanswer
    exact hanswer
  · rw [hbroken, (stream_of_safe config system user causes h (chunks ++ more) cut).1]
    exact pieces_isPrefix chunks more cut

/-- The first event's line is cut in two, and no line feed ends the second. -/
def twoEvents : List Bytes :=
  ["data:\x7b\"type\":\"content_block_delta\",\"delta\":\x7b\"type\":\"text_delta\",",
    "\"text\":\"Hel\"\x7d\x7d\r\n\r\ndata:\x7b\"type\":\"content_block_delta\",",
    "\"delta\":\x7b\"type\":\"text_delta\",\"text\":\"lo\"\x7d\x7d"].map fun s => Utf8.encode s.toList

theorem stream_delivers_twoEvents :
    headerSafe ({} : ModelConfig).apiKey = true ∧
      (stream {} ⟨200, twoEvents, true, []⟩ [] []).pieces = ["Hel".toList] ∧
      (stream {} ⟨200, twoEvents, false, []⟩ [] []).outcome = .ok "Hello".toList := by
  obtain ⟨-, hanswer, hbroken, -, -⟩ := stream_delivers {} [] [] [] rfl twoEvents
  refine ⟨rfl, ?_, ?_⟩
  · rw [hbroken]
    decide +kernel
  · rw [hanswer]
    apply congrArg
    decide +kernel

end ModelClient

end Emend
