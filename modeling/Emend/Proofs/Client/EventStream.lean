import Emend.Client.ModelClient
import Emend.Proofs.Text.Utf8

namespace Emend

namespace EventStream

/-- The text that arrives. -/
def heard (chunks : List Bytes) : Text := chunks.flatMap Utf8.decodeLossy

/-- Every chunk holds whole characters. -/
def Unbroken (chunks : List Bytes) : Prop := ∀ chunk ∈ chunks, ∃ t, chunk = Utf8.encode t

theorem heard_cons (chunk : Bytes) (chunks : List Bytes) :
    heard (chunk :: chunks) = Utf8.decodeLossy chunk ++ heard chunks := List.flatMap_cons

theorem heard_encode (s : Text) : heard [Utf8.encode s] = s := by
  rw [heard, List.flatMap_singleton, Utf8.decodeLossy_encode]

theorem heard_eq_iff {s : Text} {chunks : List Bytes} (h : chunks.flatten = Utf8.encode s) :
    heard chunks = s ↔ Unbroken chunks := Utf8.flatMap_decodeLossy_eq_iff h

theorem completeLines_cons (c : Char) (s : Text) :
    completeLines (c :: s) =
      if c = '\n' then ([] :: (completeLines s).1, (completeLines s).2)
      else match (completeLines s).1 with
        | [] => ([], c :: (completeLines s).2)
        | l :: ls => ((c :: l) :: ls, (completeLines s).2) := by
  rfl

theorem completeLines_append (s t : Text) :
    completeLines (s ++ t) =
      ((completeLines s).1 ++ (completeLines ((completeLines s).2 ++ t)).1,
        (completeLines ((completeLines s).2 ++ t)).2) := by
  induction s with
  | nil => rfl
  | cons c s ih =>
      rw [List.cons_append, completeLines_cons, completeLines_cons, ih]
      by_cases hc : c = '\n'
      · rw [if_pos hc, if_pos hc]
        rfl
      · rw [if_neg hc, if_neg hc]
        cases hs : (completeLines s).1 with
        | nil =>
            dsimp only
            rw [List.cons_append, completeLines_cons, if_neg hc]
            rfl
        | cons l ls => rfl

theorem no_feed_completeLines (s : Text) : '\n' ∉ (completeLines s).2 := by
  induction s with
  | nil => exact List.not_mem_nil
  | cons c s ih =>
      rw [completeLines_cons]
      by_cases hc : c = '\n'
      · rwa [if_pos hc]
      · rw [if_neg hc]
        cases (completeLines s).1 with
        | nil =>
            rw [List.mem_cons, not_or]
            exact ⟨Ne.symm hc, ih⟩
        | cons l ls => exact ih

theorem completeLines_of_no_feed {s : Text} (h : '\n' ∉ s) : completeLines s = ([], s) := by
  induction s with
  | nil => rfl
  | cons c s ih =>
      rw [List.mem_cons, not_or] at h
      rw [completeLines_cons, if_neg (Ne.symm h.1), ih h.2]

theorem feed_eq (pending : Text) (chunk : Bytes) :
    feed pending chunk =
      ((completeLines (pending ++ Utf8.decodeLossy chunk)).1.filterMap fun l => lineText? l.trimEnd,
        (completeLines (pending ++ Utf8.decodeLossy chunk)).2) := rfl

/-- What a chunk leaves pending completes the lines of the chunks after it. -/
theorem feedAll_eq {pending : Text} (h : '\n' ∉ pending) (chunks : List Bytes) :
    feedAll pending chunks =
      ((completeLines (pending ++ heard chunks)).1.filterMap fun l => lineText? l.trimEnd,
        (completeLines (pending ++ heard chunks)).2) := by
  induction chunks generalizing pending with
  | nil =>
      rw [heard, List.flatMap_nil, List.append_nil, completeLines_of_no_feed h]
      rfl
  | cons chunk chunks ih =>
      have hrest := ih (no_feed_completeLines (pending ++ Utf8.decodeLossy chunk))
      rw [feedAll, feed_eq]
      dsimp only
      rw [hrest, heard_cons, ← List.append_assoc,
        completeLines_append (pending ++ Utf8.decodeLossy chunk), List.filterMap_append]

theorem pieces_congr {chunks chunks' : List Bytes} (h : heard chunks = heard chunks')
    (cut : Bool) : pieces chunks cut = pieces chunks' cut := by
  have hall : feedAll [] chunks = feedAll [] chunks' := by
    rw [feedAll_eq List.not_mem_nil, feedAll_eq List.not_mem_nil, h]
  rw [pieces, pieces, hall]

end EventStream

namespace ModelClient

open EventStream

variable (config : ModelConfig) (system user : Text) (cut : Bool) (causes : List Text)

theorem stream_congr {chunks chunks' : List Bytes} (h : heard chunks = heard chunks') :
    stream config ⟨200, chunks, cut, causes⟩ system user =
      stream config ⟨200, chunks', cut, causes⟩ system user := by
  have hpieces := pieces_congr h cut
  simp only [stream, send, hpieces, if_true]

/-- A call depends on the chunks of its answer through the text that arrives. That text is the one
that was sent exactly when the chunks hold whole characters, and then no two ways of cutting the
answer make a difference. -/
theorem stream_eq_of_unbroken {s : Text} {chunks chunks' : List Bytes}
    (h : chunks.flatten = Utf8.encode s) (h' : chunks'.flatten = Utf8.encode s) :
    stream config ⟨200, chunks, cut, causes⟩ system user =
        stream config ⟨200, [Utf8.encode (heard chunks)], cut, causes⟩ system user ∧
      (heard chunks = s ↔ Unbroken chunks) ∧
      (Unbroken chunks → Unbroken chunks' →
        stream config ⟨200, chunks, cut, causes⟩ system user =
          stream config ⟨200, chunks', cut, causes⟩ system user) := by
  refine ⟨?_, heard_eq_iff h, fun hchunks hchunks' => ?_⟩
  · exact stream_congr config system user cut causes (heard_encode (heard chunks)).symm
  · apply stream_congr
    rw [(heard_eq_iff h).2 hchunks, (heard_eq_iff h').2 hchunks']

def accentEvent : Text :=
  "data:\x7b\"type\":\"content_block_delta\",\"delta\":\x7b\"type\":\"text_delta\",\"text\":\"é\"\x7d\x7d\n".toList

def cutAt (n : Nat) : List Bytes :=
  [(Utf8.encode accentEvent).take n, (Utf8.encode accentEvent).drop n]

theorem flatten_cutAt (n : Nat) : (cutAt n).flatten = Utf8.encode accentEvent := by
  rw [cutAt, List.flatten_cons, List.flatten_cons, List.flatten_nil, List.append_nil,
    List.take_append_drop]

theorem unbroken_cutAt_before : Unbroken (cutAt 72) :=
  (heard_eq_iff (flatten_cutAt 72)).1 (by decide +kernel)

theorem unbroken_cutAt_within_line : Unbroken (cutAt 40) :=
  (heard_eq_iff (flatten_cutAt 40)).1 (by decide +kernel)

theorem stream_cutAt :
    stream {} ⟨200, cutAt 72, false, []⟩ [] [] = stream {} ⟨200, cutAt 40, false, []⟩ [] [] :=
  (stream_eq_of_unbroken {} [] [] false [] (flatten_cutAt 72) (flatten_cutAt 40)).2.2
    unbroken_cutAt_before unbroken_cutAt_within_line

/-- A letter whose bytes arrive in two chunks is lost. -/
theorem not_forall_stream_eq :
    ¬∀ (config : ModelConfig) (system user s : Text) (chunks chunks' : List Bytes),
      chunks.flatten = Utf8.encode s → chunks'.flatten = Utf8.encode s →
      stream config ⟨200, chunks, false, []⟩ system user =
        stream config ⟨200, chunks', false, []⟩ system user := by
  intro h
  have hsame := h {} [] [] accentEvent (cutAt 73) (cutAt 72) (flatten_cutAt 73) (flatten_cutAt 72)
  have hpieces : pieces (cutAt 73) false = pieces (cutAt 72) false :=
    congrArg Exchange.pieces hsame
  have hbroken : pieces (cutAt 73) false = ["\uFFFD\uFFFD".toList] := by
    decide +kernel
  have hwhole : pieces (cutAt 72) false = ["é".toList] := by
    decide +kernel
  rw [hbroken, hwhole] at hpieces
  exact absurd hpieces (by decide)

end ModelClient

end Emend
