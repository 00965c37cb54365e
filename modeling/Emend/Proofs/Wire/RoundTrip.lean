import Emend.Proofs.Decimal.Reading
import Emend.Proofs.Wire.Session

namespace Emend

open Json Json.Value

/-- The value is written in one of its forms, and the text of each of its forms is read as `y`. -/
structure ReadsBack {γ : Type} (form : Value → Prop) (written : Value) (ofJson? : Value → Option γ)
    (y : γ) : Prop where
  hasForm : form written
  read (v : Value) : form v → (Json.read? v.render).bind ofJson? = some y

theorem ReadsBack.of_ofJson? {γ : Type} {form : Value → Prop} {written : Value}
    {ofJson? : Value → Option γ} {y : γ} (hasForm : form written)
    (hwritten : ∀ {v}, form v → v.wellFormed Literal.isWritten = true)
    (hread : ∀ {v}, form v → ofJson? v = some y) : ReadsBack form written ofJson? y where
  hasForm := hasForm
  read v h := by
    rw [Json.read?_render (hwritten h)]
    exact hread h

/-- What a reader with numbers of this kind makes of the literal of a double. -/
def reread (β : Type) [Numeral β] [Inhabited β] (s : Float) : β :=
  ((Numeral.literal? s).bind Numeral.ofLiteral?).getD default

/-- Numbers of this kind are read from what is written of finite scores and of indexes. -/
structure ReadsNumbers (β : Type) [Numeral β] : Prop where
  score {s : Float} {l : Literal} : s.isFinite = true → Numeral.literal? s = some l →
    ∃ y : β, Numeral.ofLiteral? l = some y
  index {n : Nat} : n < word → inRange β (.ofNat n) = true

theorem readsNumbers_rat : ReadsNumbers ℚ where
  score _ _ := ⟨_, rfl⟩
  index _ := rfl

theorem readsNumbers_float : ReadsNumbers Float where
  score := exists_double?_of_literal?
  index hn := by
    obtain ⟨y, hy⟩ := Literal.exists_double?_ofNat hn
    rw [inRange, Option.isSome_iff_exists]
    exact ⟨y, hy⟩

theorem round_reread {s : Float} (h : s.isFinite = true) :
    Nearest.round (reread ℚ s) = Double.val s := by
  obtain ⟨l, hl, -, hround⟩ := exists_literal? h
  have hread : reread ℚ s = l.value := by
    rw [reread, hl]
    rfl
  rw [hread, hround]

/-- A double that has no literal is written as null. -/
theorem written_score (s : Float) : Written Literal.isWritten s := by
  intro l hl
  simp only [Numeral.literal?] at hl
  split at hl
  · rename_i d _
    obtain rfl := Option.some.inj hl
    exact d.isWritten_literal
  · cases hl

section

variable {β : Type} [Numeral β] [Inhabited β]

theorem ReadsNumbers.reads (h : ReadsNumbers β) {s : Float} (hs : s.isFinite = true) :
    Reads (reread β) s := by
  obtain ⟨l, hl, -, -⟩ := exists_literal? hs
  obtain ⟨y, hy⟩ := h.score hs hl
  refine ⟨l, hl, ?_⟩
  rw [reread, hl, Option.bind_some, hy, Option.getD_some]

theorem ReadsNumbers.ofJson?_message (h : ReadsNumbers β) {m : StreamMessage Float}
    (hindexes : ∀ i ∈ m.indexes, i < word) (hscores : ∀ s ∈ m.scores, s.isFinite = true)
    {v : Value} (hv : m.HasForm v) : StreamMessage.ofJson? v = some (m.map (reread β)) :=
  StreamMessage.ofJson?_of_hasForm hv
    (fun i hi => ⟨hindexes i hi, h.index (hindexes i hi)⟩) fun s hs => h.reads (hscores s hs)

theorem ReadsNumbers.ofJson?_result (h : ReadsNumbers β) {r : InstructionResult Float}
    (hindex : r.index < word) (hscores : ∀ s ∈ r.scores, s.isFinite = true) {v : Value}
    (hv : r.HasForm v) : InstructionResult.ofJson? v = some (r.map (reread β)) :=
  InstructionResult.ofJson?_of_hasForm hv hindex fun s hs => h.reads (hscores s hs)

variable (β) in
/-- Values that hold scores are read back by a reader with numbers of this kind, if the scores are
finite and the indexes fit in a word. -/
structure ReadsBackScored : Prop where
  error (e : ReconcileError Float) (hscores : ∀ s ∈ e.scores, s.isFinite = true) :
    ReadsBack e.HasForm e.toJson (ReconcileError.ofJson? 0) (e.map (reread β))
  reconciliation (r : Reconciliation Float) (hscores : ∀ s ∈ r.scores, s.isFinite = true) :
    ReadsBack r.HasForm r.toJson (Reconciliation.ofJson? 0) (r.map (reread β))
  message (m : StreamMessage Float) (hindexes : ∀ i ∈ m.indexes, i < word)
    (hscores : ∀ s ∈ m.scores, s.isFinite = true) :
    ReadsBack m.HasForm m.toJson StreamMessage.ofJson? (m.map (reread β))
  result (r : InstructionResult Float) (hindex : r.index < word)
    (hscores : ∀ s ∈ r.scores, s.isFinite = true) :
    ReadsBack r.HasForm r.toJson InstructionResult.ofJson? (r.map (reread β))

theorem ReadsNumbers.readsBackScored (h : ReadsNumbers β) : ReadsBackScored β where
  error e hscores := .of_ofJson? e.hasForm_toJson
    (fun hv => hv.wellFormed fun s _ => written_score s)
    (fun hv => ReconcileError.ofJson?_of_hasForm hv (fun s hs => h.reads (hscores s hs))
      (by decide))
  reconciliation r hscores := .of_ofJson? r.hasForm_toJson
    (fun hv => hv.wellFormed fun s _ => written_score s)
    (fun hv => Reconciliation.ofJson?_of_hasForm hv (fun s hs => h.reads (hscores s hs))
      (by decide))
  message m hindexes hscores := .of_ofJson? m.hasForm_toJson
    (fun hv => hv.wellFormed (fun i _ => Literal.isWritten_ofNat i) fun s _ => written_score s)
    (h.ofJson?_message hindexes hscores)
  result r hindex hscores := .of_ofJson? r.hasForm_toJson
    (fun hv => hv.wellFormed (Literal.isWritten_ofNat r.index) fun s _ => written_score s)
    (h.ofJson?_result hindex hscores)

end

theorem StreamMessage.read?_jsonText (m : StreamMessage Float) :
    Json.read? m.jsonText = some m.toJson :=
  Json.read?_render (m.hasForm_toJson.wellFormed (fun i _ => Literal.isWritten_ofNat i)
    fun s _ => written_score s)

theorem InstructionResult.read?_listText (rs : List (InstructionResult Float)) :
    Json.read? (listText rs) = some (.array (rs.map toJson)) := by
  apply Json.read?_render
  refine wellFormed_of_hasItems (hasItems_map InstructionResult.hasForm_toJson rs) ?_
  exact fun r _ _ hr => hr.wellFormed (Literal.isWritten_ofNat r.index) fun s _ => written_score s

theorem InstructionResult.list?_ofJson? {rs : List (InstructionResult Float)}
    (h : ∀ r ∈ rs, r.index < word ∧ ∀ s ∈ r.scores, s.isFinite = true) :
    list? ofJson? (.array (rs.map toJson)) = some (rs.map (·.map (reread ℚ))) := by
  refine list?_of_hasItems (hasItems_map InstructionResult.hasForm_toJson rs) ?_
  intro r hr v hv
  obtain ⟨hindex, hscores⟩ := h r hr
  exact readsNumbers_rat.ofJson?_result hindex hscores hv

/-- All values that are sent are read back from their texts, and exact scores are rounded to those
that were sent. -/
theorem wire_readsBack :
    (∀ s : Snippet, ReadsBack s.HasForm s.toJson Snippet.ofJson? s) ∧
    (∀ files : FileSet, ReadsBack files.HasForm files.toJson FileSet.ofJson? files) ∧
    (∀ c : Change, ReadsBack c.HasForm c.toJson Change.ofJson? c) ∧
    (∀ q : Plan, ReadsBack q.HasForm q.toJson Plan.ofJson? q) ∧
    (∀ q : EditRequest, ReadsBack q.HasForm q.toJson EditRequest.ofJson? q) ∧
    ReadsBackScored ℚ ∧ ReadsBackScored Float ∧
    ∀ s : Float, s.isFinite = true → Nearest.round (reread ℚ s) = Double.val s := by
  refine ⟨fun s => ?_, fun files => ?_, fun c => ?_, fun q => ?_, fun q => ?_, ?_, ?_, ?_⟩
  · exact .of_ofJson? s.hasForm_toJson (·.wellFormed) Snippet.ofJson?_of_hasForm
  · exact .of_ofJson? files.hasForm_toJson (·.wellFormed) FileSet.ofJson?_of_hasForm
  · exact .of_ofJson? c.hasForm_toJson (·.wellFormed) Change.ofJson?_of_hasForm
  · exact .of_ofJson? q.hasForm_toJson (·.wellFormed) Plan.ofJson?_of_hasForm
  · exact .of_ofJson? q.hasForm_toJson (·.wellFormed) EditRequest.ofJson?_of_hasForm
  · exact readsNumbers_rat.readsBackScored
  · exact readsNumbers_float.readsBackScored
  · exact fun s => round_reread

theorem reread_half : reread ℚ 0.5 = 1 / 2 := by
  have hliteral : Numeral.literal? (0.5 : Float) = some ⟨false, ['0'], ['5'], none⟩ := by
    decide +kernel
  have hvalue : (⟨false, ['0'], ['5'], none⟩ : Literal).value = 5 * 10 ^ (-1 : ℤ) := by
    rw [Literal.value, if_neg (by decide), one_mul]
    rfl
  calc reread ℚ 0.5 = (⟨false, ['0'], ['5'], none⟩ : Literal).value := by
        rw [reread, hliteral]
        rfl
    _ = 1 / 2 := by
        rw [hvalue]
        norm_num

/-- The members of all objects in reverse order, the tag last, and one that is no field. -/
theorem wire_readsBack_reversed :
    word - 1 < word ∧ (0.5 : Float).isFinite = true ∧
    (Json.read? (Value.record [("note".toList, .bool true), ("error".toList, .null),
      ("reconciliation".toList, .record [
        ("failures".toList, .array [.record [("search_block".toList, .text "é\n".toList),
          ("best_score".toList, .numeral (0.5 : Float)), ("filepath".toList, .text "a.ts".toList),
          ("kind".toList, .text "noMatch".toList)]]),
        ("changes".toList, .array [])]),
      ("instruction".toList, .text "fix".toList),
      ("index".toList, .nat (word - 1))]).render).bind InstructionResult.ofJson? =
    some ⟨word - 1, "fix".toList,
      ⟨[], [.noMatch "a.ts".toList (1 / 2 : ℚ) "é\n".toList]⟩, none⟩ := by
  have hindex : word - 1 < word := by decide
  have hfinite : (0.5 : Float).isFinite = true := by decide +kernel
  refine ⟨hindex, hfinite, ?_⟩
  let r : InstructionResult Float := ⟨word - 1, "fix".toList,
    ⟨[], [.noMatch "a.ts".toList 0.5 "é\n".toList]⟩, none⟩
  have hscores : ∀ s ∈ r.scores, s.isFinite = true := by
    intro s hs
    obtain rfl : s = 0.5 := List.mem_singleton.1 hs
    exact hfinite
  have hread := (wire_readsBack.2.2.2.2.2.1.result r hindex hscores).read _
    ⟨_, ⟨_, _, ⟨[], .nil, rfl⟩, ⟨_, .cons ⟨[], _, by simp, List.reverse_perm _, rfl⟩ .nil, rfl⟩,
      [], _, by simp, List.reverse_perm _, rfl⟩,
      [("note".toList, .bool true)], _, by decide, List.reverse_perm _, rfl⟩
  rw [← reread_half]
  exact hread

end Emend
